import Ilobilix.Foundation.Buddy
import Ilobilix.Memory.Pmm.Model
import Mathlib.Logic.Relation

/-!
# The page database

`PageDb z db F U added` is the invariant of the page database `db` for a set `F` of free blocks and a
set `U` of blocks handed out: the blocks are disjoint and cover the pages added so far, the entry at
the base of a block holds its order and whether it is handed out, and `next_paddr` either is zero or
leads to the block right after it. The last clause is what makes the buddy found by `coalesce_to` the
buddy: the chain is kept by every split and merge, whatever stale fields the pages inside a block
have.

The allocator edits the blocks in five ways (`add`, `split`, `merge`, `take`, `give`), and each of
them has one lemma here. `Pieces` says more about the chain: where it ends.
-/

namespace Ilobilix.Pmm

open Lib

/-- The physical addresses that the page database and the direct map can represent: `next_paddr`
holds 48-bit addresses, and a physical address has to lie below the direct map offset and to be
mapped without wrapping around. -/
def Zone.window (z : Zone) : ℕ := min (2 ^ paddrBits) (min z.hhdm (2 ^ 64 - z.hhdm))

/-- The direct map offset is a multiple of the largest block size. -/
def Zone.Aligned (z : Zone) : Prop := pageSize * 2 ^ maxOrder ∣ z.hhdm

/-- A block of a legal order, aligned to its size and inside the window of the zone. -/
structure Zone.Fits (z : Zone) (b : Block) : Prop where
  order_le : b.order ≤ maxOrder
  aligned : 2 ^ b.order ∣ b.base
  window : (b.base + 2 ^ b.order) * pageSize ≤ z.window

theorem Zone.Fits.base_lt {z : Zone} {b : Block} (h : z.Fits b) : b.base < 2 ^ 36 := by
  have hw := h.window
  have hpos := Nat.two_pow_pos b.order
  simp only [Zone.window, paddrBits, pageSize] at hw
  omega

/-- The invariant of the page database for the free blocks `F`, the blocks `U` handed out and the
pages `added` so far. -/
structure PageDb (z : Zone) (db : ℕ → Page) (F U : Set Block) (added : Set ℕ) : Prop where
  fits : ∀ b ∈ F ∪ U, z.Fits b
  disjoint : (F ∪ U).PairwiseDisjoint Block.pages
  cover : ⋃ b ∈ F ∪ U, b.pages = added
  separate : Disjoint F U
  order_eq : ∀ b ∈ F ∪ U, (db b.base).order = b.order
  allocated_iff : ∀ p, (db p).allocated = true ↔ ∃ b ∈ U, b.base = p
  chain : ∀ b ∈ F ∪ U, (db b.base).nextPaddr = 0 ∨
    (db b.base).nextPaddr = b.base + 2 ^ b.order ∧ ∃ c ∈ F ∪ U, c.base = b.base + 2 ^ b.order
  fresh : ∀ p ∉ added, (db p).nextPaddr = 0

namespace PageDb

variable {z : Zone} {db : ℕ → Page} {F U : Set Block} {added : Set ℕ}

theorem initial (z : Zone) : PageDb z State.initial.pfndb ∅ ∅ ∅ where
  fits := by simp
  disjoint := by simp
  cover := by simp
  separate := by simp
  order_eq := by simp
  allocated_iff := by simp [State.initial]
  chain := by simp
  fresh := by simp [State.initial]

/-- A page is in at most one block. -/
theorem eq_of_mem (h : PageDb z db F U added) {b c : Block} (hb : b ∈ F ∪ U) (hc : c ∈ F ∪ U)
    {x : ℕ} (hxb : x ∈ b.pages) (hxc : x ∈ c.pages) : b = c :=
  h.disjoint.elim_set hb hc x hxb hxc

theorem eq_of_base (h : PageDb z db F U added) {b c : Block} (hb : b ∈ F ∪ U) (hc : c ∈ F ∪ U)
    (hbc : b.base = c.base) : b = c :=
  h.eq_of_mem hb hc b.base_mem_pages (hbc ▸ c.base_mem_pages)

/-- The base of a block is not inside another one. -/
theorem base_of_mem (h : PageDb z db F U added) {b c : Block} (hb : b ∈ F ∪ U) (hc : c ∈ F ∪ U)
    (hbc : b.base ∈ c.pages) : b = c :=
  h.eq_of_mem hb hc b.base_mem_pages hbc

/-- At most one block ends where another one starts. -/
theorem eq_of_end (h : PageDb z db F U added) {b c : Block} (hb : b ∈ F ∪ U) (hc : c ∈ F ∪ U)
    (hbc : b.base + 2 ^ b.order = c.base + 2 ^ c.order) : b = c :=
  h.eq_of_mem hb hc b.last_mem_pages (hbc ▸ c.last_mem_pages)

theorem mem_added (h : PageDb z db F U added) {b : Block} (hb : b ∈ F ∪ U) {x : ℕ}
    (hx : x ∈ b.pages) : x ∈ added := by
  rw [← h.cover]
  exact Set.mem_biUnion hb hx

theorem not_allocated (h : PageDb z db F U added) {b : Block} (hb : b ∈ F) {p : ℕ}
    (hp : p ∈ b.pages) : (db p).allocated = false := by
  rw [Bool.eq_false_iff]
  intro hall
  obtain ⟨c, hc, rfl⟩ := (h.allocated_iff p).mp hall
  have : c = b := h.base_of_mem (Or.inr hc) (Or.inl hb) hp
  exact Set.disjoint_left.mp h.separate hb (this ▸ hc)

theorem nextPaddr_lt (h : PageDb z db F U added) {b : Block} (hb : b ∈ F ∪ U) :
    (db b.base).nextPaddr < 2 ^ 36 := by
  rcases h.chain b hb with h0 | ⟨hn, c, hc, hcb⟩
  · omega
  · rw [hn, ← hcb]
    exact (h.fits c hc).base_lt

/-- The blocks after replacing free blocks `R` by free blocks `S`. -/
private theorem replace_eq (h : PageDb z db F U added) {R S : Set Block} (hR : R ⊆ F) :
    (F \ R ∪ S) ∪ U = (F ∪ U) \ R ∪ S := by
  have hU : U \ R = U := by
    rw [sdiff_eq_left]
    exact (h.separate.mono_left hR).symm
  rw [Set.union_sdiff_distrib, hU]
  ac_rfl

/-- `add_range` inserts a block over new pages. -/
theorem add (h : PageDb z db F U added) {b : Block} (hfits : z.Fits b)
    (hnew : Disjoint b.pages added) :
    PageDb z (Function.update db b.base { db b.base with order := b.order }) (insert b F) U
      (added ∪ b.pages) := by
  have hbase : b.base ∉ added := fun hin =>
    Set.disjoint_left.mp hnew b.base_mem_pages hin
  have hne : ∀ c ∈ F ∪ U, c.base ≠ b.base := fun c hc heq =>
    hbase (heq ▸ h.mem_added hc c.base_mem_pages)
  have hbU : b ∉ U := fun hb => hne b (Or.inr hb) rfl
  have halloc : (db b.base).allocated = false := by
    rw [Bool.eq_false_iff]
    intro hall
    obtain ⟨c, hc, hcb⟩ := (h.allocated_iff _).mp hall
    exact hne c (Or.inr hc) hcb
  have hmem : ∀ c, c ∈ insert b F ∪ U ↔ c = b ∨ c ∈ F ∪ U := by
    intro c
    simp only [Set.mem_union, Set.mem_insert_iff]
    tauto
  refine ⟨?_, ?_, ?_, ?_, ?_, ?_, ?_, ?_⟩
  · intro c hc
    rcases (hmem c).mp hc with rfl | hc
    · exact hfits
    · exact h.fits c hc
  · rw [Set.insert_union, Set.pairwiseDisjoint_insert]
    refine ⟨h.disjoint, fun c hc _ => ?_⟩
    rw [Set.disjoint_left]
    exact fun x hxb hxc => Set.disjoint_left.mp hnew hxb (h.mem_added hc hxc)
  · rw [Set.insert_union, Set.biUnion_insert, h.cover, Set.union_comm]
  · rw [Set.disjoint_insert_left]
    exact ⟨hbU, h.separate⟩
  · intro c hc
    rcases (hmem c).mp hc with rfl | hc
    · simp
    · rw [Function.update_of_ne (hne c hc)]
      exact h.order_eq c hc
  · intro p
    by_cases hp : p = b.base
    · subst hp
      simp only [Function.update_self, halloc, Bool.false_eq_true, false_iff]
      rintro ⟨c, hc, hcb⟩
      exact hne c (Or.inr hc) hcb
    · rw [Function.update_of_ne hp]
      exact h.allocated_iff p
  · intro c hc
    rcases (hmem c).mp hc with rfl | hc
    · left
      simpa using h.fresh _ hbase
    · rw [Function.update_of_ne (hne c hc)]
      rcases h.chain c hc with h0 | ⟨hn, d, hd, hdc⟩
      · exact Or.inl h0
      · exact Or.inr ⟨hn, d, (hmem d).mpr (Or.inr hd), hdc⟩
  · intro p hp
    have hpb : p ≠ b.base := fun heq => hp (Or.inr (heq ▸ b.base_mem_pages))
    rw [Function.update_of_ne hpb]
    exact h.fresh p fun hin => hp (Or.inl hin)

/-- Replacing free blocks by free blocks over the same pages, whose entries are rewritten as the
invariant asks and whose bases do not break the chains of the other blocks. -/
theorem replace (h : PageDb z db F U added) {R S : Set Block} {db' : ℕ → Page} (hR : R ⊆ F)
    (hS : S.PairwiseDisjoint Block.pages) (hcover : ⋃ b ∈ S, b.pages = ⋃ b ∈ R, b.pages)
    (hfits : ∀ b ∈ S, z.Fits b) (horder : ∀ b ∈ S, (db' b.base).order = b.order)
    (hkeep : ∀ c ∈ (F ∪ U) \ R, db' c.base = db c.base)
    (halloc : ∀ p, (db' p).allocated = (db p).allocated)
    (hnext : ∀ p ∉ added, (db' p).nextPaddr = (db p).nextPaddr)
    (hbase : ∀ b ∈ R, (∃ c ∈ S, c.base = b.base) ∨ ∀ c ∈ (F ∪ U) \ R, c.base + 2 ^ c.order ≠ b.base)
    (hchain : ∀ b ∈ S, (db' b.base).nextPaddr = 0 ∨
      (db' b.base).nextPaddr = b.base + 2 ^ b.order ∧
        ∃ c ∈ (F ∪ U) \ R ∪ S, c.base = b.base + 2 ^ b.order) :
    PageDb z db' (F \ R ∪ S) U added := by
  have heq := h.replace_eq (S := S) hR
  have hRB : R ⊆ F ∪ U := hR.trans Set.subset_union_left
  refine ⟨?_, ?_, ?_, ?_, ?_, ?_, ?_, ?_⟩
  · rw [heq]
    rintro b (hb | hb)
    · exact h.fits b hb.1
    · exact hfits b hb
  · rw [heq]
    exact h.disjoint.replace hRB hS hcover
  · rw [heq, Set.biUnion_replace hRB hcover, h.cover]
  · rw [Set.disjoint_left]
    rintro b (hb | hb) hbU
    · exact Set.disjoint_left.mp h.separate hb.1 hbU
    · -- a block of `S` shares its base page with a block of `R`, which is free
      have hx : b.base ∈ ⋃ r ∈ R, r.pages := hcover ▸ Set.mem_biUnion hb b.base_mem_pages
      obtain ⟨r, hr, hbr⟩ := Set.mem_iUnion₂.mp hx
      have := h.base_of_mem (Or.inr hbU) (hRB hr) hbr
      exact Set.disjoint_left.mp h.separate (hR hr) (this ▸ hbU)
  · rw [heq]
    rintro b (hb | hb)
    · rw [hkeep b hb]
      exact h.order_eq b hb.1
    · exact horder b hb
  · intro p
    rw [halloc p]
    exact h.allocated_iff p
  · rw [heq]
    rintro b (hb | hb)
    · rw [hkeep b hb]
      rcases h.chain b hb.1 with h0 | ⟨hn, c, hc, hcb⟩
      · exact Or.inl h0
      · refine Or.inr ⟨hn, ?_⟩
        by_cases hcR : c ∈ R
        · rcases hbase c hcR with ⟨d, hd, hdc⟩ | hno
          · exact ⟨d, Or.inr hd, hdc.trans hcb⟩
          · exact absurd hcb.symm (hno b hb)
        · exact ⟨c, Or.inl ⟨hc, hcR⟩, hcb⟩
    · exact hchain b hb
  · intro p hp
    rw [hnext p hp]
    exact h.fresh p hp

/-- `split_to` replaces a free block by its halves. The lower half leads to the upper one, which
inherits the successor of the block. -/
theorem split (h : PageDb z db F U added) {p k : ℕ} (hb : ⟨p, k + 1⟩ ∈ F) :
    PageDb z
      (Function.update (Function.update db (p + 2 ^ k) ⟨(db p).nextPaddr, k, false⟩) p
        ⟨p + 2 ^ k, k, false⟩)
      (F \ {⟨p, k + 1⟩} ∪ {⟨p, k⟩, ⟨p + 2 ^ k, k⟩}) U added := by
  have hpos := Nat.two_pow_pos k
  have hne : p + 2 ^ k ≠ p := by omega
  have hfits := h.fits _ (Or.inl hb)
  have hbuddy : p + 2 ^ k ∈ Block.pages ⟨p, k + 1⟩ := by
    rw [Block.mem_pages]
    simp only [pow_succ]
    omega
  -- no other block has its base at one of the halves
  have hother : ∀ c ∈ (F ∪ U) \ {⟨p, k + 1⟩}, c.base ≠ p ∧ c.base ≠ p + 2 ^ k := by
    rintro c ⟨hc, hcne⟩
    exact ⟨fun hcp => hcne (h.eq_of_base hc (Or.inl hb) hcp),
      fun hcp => hcne (h.base_of_mem hc (Or.inl hb) (hcp ▸ hbuddy))⟩
  have hp := h.not_allocated hb (Block.base_mem_pages ⟨p, k + 1⟩)
  have hq := h.not_allocated hb hbuddy
  apply h.replace (by simpa using hb) (Block.halves_pairwiseDisjoint p k)
  · rw [Block.biUnion_halves, Set.biUnion_singleton]
  · have hw := hfits.window
    have ho := hfits.order_le
    have ha := hfits.aligned
    simp only [pow_succ] at hw ha ho
    have hlow : (p + 2 ^ k) * pageSize ≤ (p + 2 ^ k * 2) * pageSize :=
      Nat.mul_le_mul_right _ (by omega)
    have hhigh : (p + 2 ^ k + 2 ^ k) * pageSize ≤ (p + 2 ^ k * 2) * pageSize :=
      Nat.mul_le_mul_right _ (by omega)
    have hdvd : 2 ^ k ∣ p := (Dvd.intro _ rfl).trans ha
    rintro b (rfl | rfl)
    · exact ⟨by dsimp only; omega, hdvd, hlow.trans hw⟩
    · exact ⟨by dsimp only; omega, Nat.dvd_add hdvd dvd_rfl, hhigh.trans hw⟩
  · rintro b (rfl | rfl) <;> simp
  · intro c hc
    obtain ⟨hcp, hcq⟩ := hother c hc
    rw [Function.update_of_ne hcp, Function.update_of_ne hcq]
  · intro x
    by_cases hxp : x = p
    · subst hxp
      simpa using hp.symm
    · rw [Function.update_of_ne hxp]
      by_cases hxq : x = p + 2 ^ k
      · subst hxq
        simpa using hq.symm
      · rw [Function.update_of_ne hxq]
  · intro x hx
    have hxp : x ≠ p := fun heq => hx (heq ▸ h.mem_added (Or.inl hb) (Block.base_mem_pages _))
    have hxq : x ≠ p + 2 ^ k := fun heq => hx (heq ▸ h.mem_added (Or.inl hb) hbuddy)
    rw [Function.update_of_ne hxp, Function.update_of_ne hxq]
  · rintro b rfl
    exact Or.inl ⟨⟨p, k⟩, by simp, rfl⟩
  · rintro b (rfl | rfl)
    · exact Or.inr ⟨by simp, ⟨p + 2 ^ k, k⟩, by simp, rfl⟩
    · rw [Function.update_of_ne hne, Function.update_self]
      rcases h.chain _ (Or.inl hb) with h0 | ⟨hn, c, hc, hcb⟩
      · exact Or.inl h0
      · have hend : p + 2 ^ (k + 1) = p + 2 ^ k + 2 ^ k := by rw [pow_succ]; omega
        refine Or.inr ⟨by simpa [hend] using hn, c, Or.inl ⟨hc, ?_⟩, by simpa [hend] using hcb⟩
        rintro rfl
        have := Nat.two_pow_pos (k + 1)
        simp at hcb

/-- `coalesce_to` replaces two free halves by the block they make up. -/
theorem merge (h : PageDb z db F U added) {p k : ℕ} (hb : ⟨p, k⟩ ∈ F) (hc : ⟨p + 2 ^ k, k⟩ ∈ F)
    (hk : k + 1 ≤ maxOrder) (ha : 2 ^ (k + 1) ∣ p) :
    PageDb z (Function.update db p ⟨(db (p + 2 ^ k)).nextPaddr, k + 1, false⟩)
      (F \ {⟨p, k⟩, ⟨p + 2 ^ k, k⟩} ∪ {⟨p, k + 1⟩}) U added := by
  have hpos := Nat.two_pow_pos k
  have hfits := h.fits _ (Or.inl hc)
  have hsucc : 2 ^ (k + 1) = 2 ^ k + 2 ^ k := by rw [pow_succ]; omega
  have hp := h.not_allocated hb (Block.base_mem_pages ⟨p, k⟩)
  apply h.replace (Set.insert_subset hb (by simpa using hc)) (Set.pairwiseDisjoint_singleton _ _)
  · rw [Block.biUnion_halves, Set.biUnion_singleton]
  · rintro b rfl
    have hle : (p + 2 ^ (k + 1)) * pageSize ≤ (p + 2 ^ k + 2 ^ k) * pageSize :=
      Nat.mul_le_mul_right _ (by omega)
    exact ⟨hk, ha, hle.trans hfits.window⟩
  · rintro b rfl
    simp
  · rintro c ⟨hcB, hcR⟩
    have hcp : c.base ≠ p := fun hcp => hcR (Or.inl (h.eq_of_base hcB (Or.inl hb) hcp))
    rw [Function.update_of_ne hcp]
  · intro x
    by_cases hxp : x = p
    · subst hxp
      simpa using hp.symm
    · rw [Function.update_of_ne hxp]
  · intro x hx
    have hxp : x ≠ p := fun heq => hx (heq ▸ h.mem_added (Or.inl hb) (Block.base_mem_pages _))
    rw [Function.update_of_ne hxp]
  · rintro b (rfl | rfl)
    · exact Or.inl ⟨⟨p, k + 1⟩, rfl, rfl⟩
    · -- the only block that ends at the upper half is the lower half
      refine Or.inr fun c hcB hend => hcB.2 (Or.inl ?_)
      exact h.eq_of_end hcB.1 (Or.inl hb) hend
  · rintro b rfl
    rw [Function.update_self]
    rcases h.chain _ (Or.inl hc) with h0 | ⟨hn, c, hcB, hcb⟩
    · exact Or.inl h0
    · dsimp only at hn hcb ⊢
      refine Or.inr ⟨by omega, c, Or.inl ⟨hcB, ?_⟩, by omega⟩
      rintro (rfl | rfl) <;> dsimp only at hcb <;> omega

/-- Changing only the `allocated` field at the base of one block and moving that block between `F`
and `U` accordingly. -/
theorem setAllocated (h : PageDb z db F U added) {b : Block} {v : Bool} {F' U' : Set Block}
    (hblocks : F' ∪ U' = F ∪ U) (hsep : Disjoint F' U')
    (hb : v = true ↔ ∃ c ∈ U', c.base = b.base)
    (hother : ∀ p, p ≠ b.base → ((∃ c ∈ U', c.base = p) ↔ ∃ c ∈ U, c.base = p)) :
    PageDb z (Function.update db b.base { db b.base with allocated := v }) F' U' added := by
  have horder : ∀ p, (Function.update db b.base { db b.base with allocated := v } p).order =
      (db p).order := by
    intro p
    by_cases hp : p = b.base <;> simp [hp]
  have hnext : ∀ p, (Function.update db b.base { db b.base with allocated := v } p).nextPaddr =
      (db p).nextPaddr := by
    intro p
    by_cases hp : p = b.base <;> simp [hp]
  refine ⟨by rw [hblocks]; exact h.fits, by rw [hblocks]; exact h.disjoint,
    by rw [hblocks]; exact h.cover, hsep, ?_, ?_, ?_, ?_⟩
  · rw [hblocks]
    intro c hc
    rw [horder]
    exact h.order_eq c hc
  · intro p
    by_cases hp : p = b.base
    · subst hp
      simpa using hb
    · rw [Function.update_of_ne hp, h.allocated_iff p, hother p hp]
  · rw [hblocks]
    intro c hc
    rw [hnext]
    exact h.chain c hc
  · intro p hp
    rw [hnext]
    exact h.fresh p hp

/-- `alloc` hands out a free block. -/
theorem take (h : PageDb z db F U added) {b : Block} (hb : b ∈ F) :
    PageDb z (Function.update db b.base { db b.base with allocated := true }) (F \ {b})
      (insert b U) added := by
  apply h.setAllocated
  · ext c
    by_cases hcb : c = b
    · subst hcb
      simp [hb]
    · simp [hcb]
  · rw [Set.disjoint_insert_right]
    exact ⟨fun hin => hin.2 rfl, h.separate.mono_left Set.sdiff_subset⟩
  · simp
  · intro p hp
    constructor
    · rintro ⟨c, rfl | hc, hcp⟩
      · exact absurd hcp.symm hp
      · exact ⟨c, hc, hcp⟩
    · rintro ⟨c, hc, hcp⟩
      exact ⟨c, Or.inr hc, hcp⟩

/-- `free` takes a block back. -/
theorem give (h : PageDb z db F U added) {b : Block} (hb : b ∈ U) :
    PageDb z (Function.update db b.base { db b.base with allocated := false }) (insert b F)
      (U \ {b}) added := by
  apply h.setAllocated
  · ext c
    by_cases hcb : c = b
    · subst hcb
      simp [hb]
    · simp [hcb]
  · rw [Set.disjoint_insert_left]
    exact ⟨fun hin => hin.2 rfl, h.separate.mono_right Set.sdiff_subset⟩
  · simp only [Bool.false_eq_true, false_iff]
    rintro ⟨c, ⟨hc, hne⟩, hcb⟩
    exact hne (h.eq_of_base (Or.inr hc) (Or.inr hb) hcb)
  · intro p hp
    constructor
    · rintro ⟨c, hc, hcp⟩
      exact ⟨c, hc.1, hcp⟩
    · rintro ⟨c, hc, hcp⟩
      exact ⟨c, ⟨hc, fun hcb => hp (hcb ▸ hcp.symm)⟩, hcp⟩

end PageDb

/-! ## The search of `alloc`

`split_to` and `coalesce_to` only ever halve a free block or put two halves together. -/

/-- One turn of `split_to` on the page database and the free blocks. -/
inductive Splits : (ℕ → Page) × Set Block → (ℕ → Page) × Set Block → Prop
  | mk {db : ℕ → Page} {F : Set Block} {p k : ℕ} (hb : ⟨p, k + 1⟩ ∈ F) :
    Splits (db, F)
      (Function.update (Function.update db (p + 2 ^ k) ⟨(db p).nextPaddr, k, false⟩) p
        ⟨p + 2 ^ k, k, false⟩,
      F \ {⟨p, k + 1⟩} ∪ {⟨p, k⟩, ⟨p + 2 ^ k, k⟩})

/-- One merge of `coalesce_to` at order `k`: the lower half is aligned to the merged block and leads
to the upper one. -/
inductive Merges (k : ℕ) : (ℕ → Page) × Set Block → (ℕ → Page) × Set Block → Prop
  | mk {db : ℕ → Page} {F : Set Block} {p : ℕ} (hb : ⟨p, k⟩ ∈ F) (hc : ⟨p + 2 ^ k, k⟩ ∈ F)
    (hk : k + 1 ≤ maxOrder) (ha : 2 ^ (k + 1) ∣ p) (hnext : (db p).nextPaddr ≠ 0) :
    Merges k (db, F)
      (Function.update db p ⟨(db (p + 2 ^ k)).nextPaddr, k + 1, false⟩,
      F \ {⟨p, k⟩, ⟨p + 2 ^ k, k⟩} ∪ {⟨p, k + 1⟩})

def Reshape (s s' : (ℕ → Page) × Set Block) : Prop := Splits s s' ∨ ∃ k, Merges k s s'

/-- No merge is left at order `k`. -/
def Settled (k : ℕ) (s : (ℕ → Page) × Set Block) : Prop :=
  ∀ p, 2 ^ (k + 1) ∣ p → ⟨p, k⟩ ∈ s.2 → ⟨p + 2 ^ k, k⟩ ∈ s.2 → (s.1 p).nextPaddr = 0

section

variable {z : Zone} {s s' : (ℕ → Page) × Set Block} {U : Set Block} {added : Set ℕ}

theorem PageDb.merges (h : PageDb z s.1 s.2 U added) {k : ℕ} (hs : Merges k s s') :
    PageDb z s'.1 s'.2 U added := by
  obtain ⟨hb, hc, hk, ha, -⟩ := hs
  exact PageDb.merge h hb hc hk ha

theorem PageDb.reshape (h : PageDb z s.1 s.2 U added) (hs : Reshape s s') :
    PageDb z s'.1 s'.2 U added := by
  rcases hs with hs | ⟨k, hs⟩
  · obtain ⟨hb⟩ := hs
    exact PageDb.split h hb
  · exact h.merges hs

/-- A merge at order `k` concerns the orders `k` and `k + 1` only. -/
theorem Merges.mem_iff {k : ℕ} (hs : Merges k s s') {b : Block} (h : b.order < k ∨ k + 1 < b.order) :
    b ∈ s'.2 ↔ b ∈ s.2 := by
  obtain ⟨p, j⟩ := b
  obtain ⟨-, -, -, -, -⟩ := hs
  simp only [Set.mem_union, Set.mem_sdiff, Set.mem_insert_iff, Set.mem_singleton_iff,
    Block.mk.injEq] at h ⊢
  constructor
  · rintro (⟨hb, -⟩ | ⟨-, rfl⟩)
    · exact hb
    · omega
  · intro hb
    exact Or.inl ⟨hb, by omega⟩

/-- So it leaves the lower orders settled. -/
theorem Merges.settled {j k : ℕ} (hs : Merges k s s') (h : PageDb z s.1 s.2 U added) (hj : j < k)
    (hset : Settled j s) : Settled j s' := by
  intro q hq hlow hhigh
  rw [hs.mem_iff (Or.inl hj)] at hlow hhigh
  obtain @⟨db, F, p, hb, -, -, -, -⟩ := hs
  have hne : q ≠ p := by
    rintro rfl
    have := h.eq_of_base (Or.inl hlow) (Or.inl hb) rfl
    rw [Block.mk.injEq] at this
    omega
  dsimp only
  rw [Function.update_of_ne hne]
  exact hset q hq hlow hhigh

end

/-! ## Pieces of the blocks that `add_range` inserted -/

/-- Every block is a piece of one of the blocks `O` that `add_range` inserted, and `next_paddr` of a
piece is zero exactly when the piece ends where that block ends. -/
structure Pieces (db : ℕ → Page) (B O : Set Block) (added : Set ℕ) : Prop where
  disjoint : O.PairwiseDisjoint Block.pages
  order_le : ∀ o ∈ O, o.order ≤ maxOrder
  within : ∀ o ∈ O, o.pages ⊆ added
  inside : ∀ b ∈ B, ∃ o ∈ O, b.pages ⊆ o.pages
  linked : ∀ b ∈ B, ∀ o ∈ O, b.base ∈ o.pages →
    ((db b.base).nextPaddr ≠ 0 ↔ b.base + 2 ^ b.order ∈ o.pages)

namespace Pieces

variable {z : Zone} {db : ℕ → Page} {F U O : Set Block} {added : Set ℕ}

theorem initial (db : ℕ → Page) : Pieces db ∅ ∅ ∅ where
  disjoint := by simp
  order_le := by simp
  within := by simp
  inside := by simp
  linked := by simp

/-- `alloc` and `free` leave the chain alone. -/
theorem congr {B : Set Block} {db' : ℕ → Page} (h : Pieces db B O added)
    (hnext : ∀ p, (db' p).nextPaddr = (db p).nextPaddr) : Pieces db' B O added where
  disjoint := h.disjoint
  order_le := h.order_le
  within := h.within
  inside := h.inside
  linked b hb o ho hbo := by
    rw [hnext]
    exact h.linked b hb o ho hbo

/-- The blocks that share a page with a piece. -/
theorem eq_of_mem {B : Set Block} (h : Pieces db B O added) {o o' : Block} (ho : o ∈ O) (ho' : o' ∈ O)
    {x : ℕ} (hx : x ∈ o.pages) (hx' : x ∈ o'.pages) : o = o' :=
  h.disjoint.elim_set ho ho' x hx hx'

theorem add (h : Pieces db (F ∪ U) O added) (hdb : PageDb z db F U added) {b : Block}
    (hfits : z.Fits b) (hnew : Disjoint b.pages added) :
    Pieces (Function.update db b.base { db b.base with order := b.order }) (insert b F ∪ U)
      (insert b O) (added ∪ b.pages) := by
  have hout : ∀ x ∈ b.pages, x ∉ added := fun x hx hin => Set.disjoint_left.mp hnew hx hin
  refine ⟨?_, ?_, ?_, ?_, ?_⟩
  · rw [Set.pairwiseDisjoint_insert]
    exact ⟨h.disjoint, fun o ho _ => hnew.mono_right (h.within o ho)⟩
  · rintro o (rfl | ho)
    · exact hfits.order_le
    · exact h.order_le o ho
  · rintro o (rfl | ho)
    · exact Set.subset_union_right
    · exact (h.within o ho).trans Set.subset_union_left
  · rintro c ((rfl | hc) | hc)
    · exact ⟨c, Set.mem_insert c O, subset_rfl⟩
    · obtain ⟨o, ho, hco⟩ := h.inside c (Or.inl hc)
      exact ⟨o, Or.inr ho, hco⟩
    · obtain ⟨o, ho, hco⟩ := h.inside c (Or.inr hc)
      exact ⟨o, Or.inr ho, hco⟩
  · intro c hc o ho hco
    rw [Set.insert_union] at hc
    rcases hc with rfl | hc
    · -- the new block is all there is of itself, and its entry has not been used before
      rcases ho with rfl | ho
      · have hzero := hdb.fresh _ (hout _ hco)
        simp only [Function.update_self, hzero, ne_eq, not_true, false_iff, Block.mem_pages]
        omega
      · exact absurd (h.within o ho hco) (hout _ c.base_mem_pages)
    · have hin := hdb.mem_added hc c.base_mem_pages
      have hne : c.base ≠ b.base := fun heq => hout _ b.base_mem_pages (heq ▸ hin)
      rw [Function.update_of_ne hne]
      rcases ho with rfl | ho
      · exact absurd hin (hout _ hco)
      · exact h.linked c hc o ho hco

theorem split (h : Pieces db (F ∪ U) O added) (hdb : PageDb z db F U added) {p k : ℕ}
    (hb : ⟨p, k + 1⟩ ∈ F) :
    Pieces
      (Function.update (Function.update db (p + 2 ^ k) ⟨(db p).nextPaddr, k, false⟩) p
        ⟨p + 2 ^ k, k, false⟩)
      (F \ {⟨p, k + 1⟩} ∪ {⟨p, k⟩, ⟨p + 2 ^ k, k⟩} ∪ U) O added := by
  have hpos := Nat.two_pow_pos k
  have hsucc : p + 2 ^ (k + 1) = p + 2 ^ k + 2 ^ k := by rw [pow_succ]; omega
  have hhalves := Block.pages_halves p k
  obtain ⟨o, ho, hsub⟩ := h.inside _ (Or.inl hb)
  have hlow : Block.pages ⟨p, k⟩ ⊆ o.pages := (hhalves ▸ Set.subset_union_left).trans hsub
  have hhigh : Block.pages ⟨p + 2 ^ k, k⟩ ⊆ o.pages := (hhalves ▸ Set.subset_union_right).trans hsub
  have hq : p + 2 ^ k ∈ Block.pages ⟨p, k + 1⟩ :=
    hhalves ▸ Or.inr (Block.base_mem_pages ⟨p + 2 ^ k, k⟩)
  have hlinked := h.linked _ (Or.inl hb) o ho (hsub (Block.base_mem_pages _))
  rw [hdb.replace_eq (by simpa using hb)]
  refine ⟨h.disjoint, h.order_le, h.within, ?_, ?_⟩
  · rintro c (hc | rfl | rfl)
    · exact h.inside c hc.1
    · exact ⟨o, ho, hlow⟩
    · exact ⟨o, ho, hhigh⟩
  · rintro c (⟨hc, hne⟩ | rfl | rfl) o' ho' hco
    · have hcp : c.base ≠ p := fun heq => hne (hdb.eq_of_base hc (Or.inl hb) heq)
      have hcq : c.base ≠ p + 2 ^ k := fun heq => hne (hdb.base_of_mem hc (Or.inl hb) (heq ▸ hq))
      rw [Function.update_of_ne hcp, Function.update_of_ne hcq]
      exact h.linked c hc o' ho' hco
    · obtain rfl := h.eq_of_mem ho ho' (hlow (Block.base_mem_pages _)) hco
      simp only [Function.update_self]
      exact ⟨fun _ => hhigh (Block.base_mem_pages _), fun _ => by omega⟩
    · obtain rfl := h.eq_of_mem ho ho' (hhigh (Block.base_mem_pages _)) hco
      have hne : p + 2 ^ k ≠ p := by omega
      simp only [Function.update_of_ne hne, Function.update_self]
      rw [hlinked]
      exact iff_of_eq (congrArg (· ∈ o.pages) hsucc)

theorem merge (h : Pieces db (F ∪ U) O added) (hdb : PageDb z db F U added) {p k : ℕ}
    (hb : ⟨p, k⟩ ∈ F) (hc : ⟨p + 2 ^ k, k⟩ ∈ F) (hnext : (db p).nextPaddr ≠ 0) :
    Pieces (Function.update db p ⟨(db (p + 2 ^ k)).nextPaddr, k + 1, false⟩)
      (F \ {⟨p, k⟩, ⟨p + 2 ^ k, k⟩} ∪ {⟨p, k + 1⟩} ∪ U) O added := by
  have hsucc : p + 2 ^ (k + 1) = p + 2 ^ k + 2 ^ k := by rw [pow_succ]; omega
  obtain ⟨o, ho, hlow⟩ := h.inside _ (Or.inl hb)
  -- the chain leads from the lower half to the upper one, so both are pieces of one block
  have hq : p + 2 ^ k ∈ o.pages :=
    (h.linked _ (Or.inl hb) o ho (hlow (Block.base_mem_pages _))).mp hnext
  have hhigh : Block.pages ⟨p + 2 ^ k, k⟩ ⊆ o.pages := by
    obtain ⟨o', ho', hsub⟩ := h.inside _ (Or.inl hc)
    obtain rfl := h.eq_of_mem ho ho' hq (hsub (Block.base_mem_pages _))
    exact hsub
  rw [hdb.replace_eq (Set.insert_subset hb (by simpa using hc))]
  refine ⟨h.disjoint, h.order_le, h.within, ?_, ?_⟩
  · rintro c (hc' | rfl)
    · exact h.inside c hc'.1
    · exact ⟨o, ho, Block.pages_halves p k ▸ Set.union_subset hlow hhigh⟩
  · rintro c (⟨hc', hne⟩ | rfl) o' ho' hco
    · have hcp : c.base ≠ p := fun heq => hne (Or.inl (hdb.eq_of_base hc' (Or.inl hb) heq))
      rw [Function.update_of_ne hcp]
      exact h.linked c hc' o' ho' hco
    · obtain rfl := h.eq_of_mem ho ho' (hlow (Block.base_mem_pages _)) hco
      simp only [Function.update_self]
      rw [h.linked _ (Or.inl hc) o ho hq]
      exact iff_of_eq (congrArg (· ∈ o.pages) hsucc.symm)

theorem reshape {s s' : (ℕ → Page) × Set Block} (hs : Reshape s s')
    (hdb : PageDb z s.1 s.2 U added) (h : Pieces s.1 (s.2 ∪ U) O added) :
    Pieces s'.1 (s'.2 ∪ U) O added := by
  rcases hs with hs | ⟨k, hs⟩
  · obtain ⟨hb⟩ := hs
    exact h.split hdb hb
  · obtain ⟨hb, hc, -, -, hnext⟩ := hs
    exact h.merge hdb hb hc hnext

/-- The search of `alloc` keeps the pieces. -/
theorem reshapes {s s' : (ℕ → Page) × Set Block} (hs : Relation.ReflTransGen Reshape s s')
    (hdb : PageDb z s.1 s.2 U added) (h : Pieces s.1 (s.2 ∪ U) O added) :
    Pieces s'.1 (s'.2 ∪ U) O added := by
  have hboth : PageDb z s'.1 s'.2 U added ∧ Pieces s'.1 (s'.2 ∪ U) O added := by
    induction hs with
    | refl => exact ⟨hdb, h⟩
    | tail _ hstep ih => exact ⟨ih.1.reshape hstep, reshape hstep ih.1 ih.2⟩
  exact hboth.2

end Pieces

end Ilobilix.Pmm
