import Mathlib.Algebra.BigOperators.Group.Finset.Basic
import Mathlib.Data.Set.Pairwise.Basic
import Mathlib.Data.Set.Pairwise.Lattice
import Mathlib.Order.CompletePartialOrder
import Mathlib.Order.Interval.Finset.Nat
import Mathlib.Order.Interval.Set.Basic
import Mathlib.Tactic.Ring

/-!
# Blocks of a buddy system

A block is a run of `2 ^ order` pages. A buddy system keeps a set of pairwise disjoint blocks and
edits it by replacing some blocks by others that cover the same pages: a block by its two halves, or
two halves by the block they make up.
-/

/-- A run of `2 ^ order` pages from page `base` on. -/
@[ext] structure Block where
  base : ℕ
  order : ℕ
deriving DecidableEq

namespace Block

/-- The pages of a block. -/
def pages (b : Block) : Set ℕ := Set.Ico b.base (b.base + 2 ^ b.order)

theorem mem_pages {b : Block} {x : ℕ} : x ∈ b.pages ↔ b.base ≤ x ∧ x < b.base + 2 ^ b.order :=
  Iff.rfl

theorem base_mem_pages (b : Block) : b.base ∈ b.pages :=
  ⟨le_rfl, Nat.lt_add_of_pos_right (Nat.two_pow_pos _)⟩

theorem last_mem_pages (b : Block) : b.base + 2 ^ b.order - 1 ∈ b.pages := by
  have := Nat.two_pow_pos b.order
  rw [mem_pages]
  omega

/-- A block is its two halves. -/
theorem pages_halves (p k : ℕ) :
    pages ⟨p, k + 1⟩ = pages ⟨p, k⟩ ∪ pages ⟨p + 2 ^ k, k⟩ := by
  ext x
  simp only [Set.mem_union, mem_pages, pow_succ]
  omega

theorem disjoint_halves (p k : ℕ) : Disjoint (pages ⟨p, k⟩) (pages ⟨p + 2 ^ k, k⟩) := by
  rw [Set.disjoint_left]
  intro x hx hy
  simp only [mem_pages] at hx hy
  omega

/-- The two halves of a block are disjoint blocks that cover it. -/
theorem halves_pairwiseDisjoint (p k : ℕ) :
    Set.PairwiseDisjoint {⟨p, k⟩, ⟨p + 2 ^ k, k⟩} pages := by
  rw [Set.pairwiseDisjoint_insert]
  refine ⟨Set.pairwiseDisjoint_singleton _ _, ?_⟩
  rintro j rfl -
  exact disjoint_halves p k

theorem biUnion_halves (p k : ℕ) :
    ⋃ b ∈ ({⟨p, k⟩, ⟨p + 2 ^ k, k⟩} : Set Block), pages b = pages ⟨p, k + 1⟩ := by
  rw [Set.biUnion_pair, pages_halves]

/-- Two aligned blocks that share a page are nested. -/
theorem pages_subset_of_mem {b c : Block} (hb : 2 ^ b.order ∣ b.base) (hc : 2 ^ c.order ∣ c.base)
    (hle : b.order ≤ c.order) {x : ℕ} (hxb : x ∈ b.pages) (hxc : x ∈ c.pages) :
    b.pages ⊆ c.pages := by
  obtain ⟨m, hm⟩ := hb
  obtain ⟨N, hN⟩ := (Nat.pow_dvd_pow 2 hle).trans hc
  obtain ⟨e, he⟩ := Nat.pow_dvd_pow 2 hle
  rw [mem_pages] at hxb hxc
  -- everything in units of the smaller block
  have hlow : N ≤ m := by
    have : 2 ^ b.order * N < 2 ^ b.order * (m + 1) := by rw [Nat.mul_add]; omega
    exact Nat.lt_succ_iff.mp (Nat.lt_of_mul_lt_mul_left this)
  have hhigh : m + 1 ≤ N + e := by
    have : 2 ^ b.order * m < 2 ^ b.order * (N + e) := by rw [Nat.mul_add]; omega
    exact Nat.lt_of_mul_lt_mul_left this
  have h₁ := Nat.mul_le_mul_left (2 ^ b.order) hlow
  have h₂ := Nat.mul_le_mul_left (2 ^ b.order) hhigh
  rw [Nat.mul_add, Nat.mul_add, Nat.mul_one] at h₂
  intro y hy
  rw [mem_pages] at hy ⊢
  omega

/-- An aligned run of pages that aligned blocks cover lies in one of them that is at least as large,
or two of the blocks are the halves of an aligned block inside the run. -/
theorem exists_buddies {F : Set Block} (hF : ∀ b ∈ F, 2 ^ b.order ∣ b.base) {q k : ℕ}
    (hq : 2 ^ k ∣ q) (hcover : pages ⟨q, k⟩ ⊆ ⋃ b ∈ F, b.pages) :
    (∃ b ∈ F, k ≤ b.order ∧ pages ⟨q, k⟩ ⊆ b.pages) ∨
      ∃ p j, j < k ∧ 2 ^ (j + 1) ∣ p ∧ (⟨p, j⟩ : Block) ∈ F ∧ (⟨p + 2 ^ j, j⟩ : Block) ∈ F ∧
        pages ⟨p, j + 1⟩ ⊆ pages ⟨q, k⟩ := by
  induction k generalizing q with
  | zero =>
      obtain ⟨b, hb, hqb⟩ := Set.mem_iUnion₂.mp (hcover (base_mem_pages ⟨q, 0⟩))
      exact Or.inl ⟨b, hb, Nat.zero_le _,
        pages_subset_of_mem hq (hF b hb) (Nat.zero_le _) (base_mem_pages ⟨q, 0⟩) hqb⟩
  | succ k ih =>
      have hdvd : 2 ^ k ∣ q := (Nat.pow_dvd_pow 2 (Nat.le_succ k)).trans hq
      have hhalves := pages_halves q k
      -- a block that holds one half is that half, unless it holds the whole run
      have hhalf : ∀ p, 2 ^ k ∣ p → pages ⟨p, k⟩ ⊆ pages ⟨q, k + 1⟩ →
          (∃ b ∈ F, k ≤ b.order ∧ pages ⟨p, k⟩ ⊆ b.pages) →
          (∃ b ∈ F, k + 1 ≤ b.order ∧ pages ⟨q, k + 1⟩ ⊆ b.pages) ∨ (⟨p, k⟩ : Block) ∈ F := by
        rintro p hp hsub ⟨b, hb, hle, hpb⟩
        have hpmem := base_mem_pages ⟨p, k⟩
        rcases Nat.eq_or_lt_of_le hle with heq | hlt
        · right
          have hback := pages_subset_of_mem (c := ⟨p, k⟩) (hF b hb) hp heq.ge (hpb hpmem) hpmem
          have h₁ := hback b.base_mem_pages
          have h₂ := hpb hpmem
          rw [mem_pages] at h₁ h₂
          have hbase : b.base = p := le_antisymm h₂.1 h₁.1
          rwa [show (⟨p, k⟩ : Block) = b from Block.ext hbase.symm heq]
        · exact Or.inl ⟨b, hb, hlt,
            pages_subset_of_mem (b := ⟨q, k + 1⟩) hq (hF b hb) hlt (hsub hpmem) (hpb hpmem)⟩
      have hlow : pages ⟨q, k⟩ ⊆ pages ⟨q, k + 1⟩ := hhalves ▸ Set.subset_union_left
      have hhigh : pages ⟨q + 2 ^ k, k⟩ ⊆ pages ⟨q, k + 1⟩ := hhalves ▸ Set.subset_union_right
      have hdvd' : 2 ^ k ∣ q + 2 ^ k := Nat.dvd_add hdvd dvd_rfl
      -- buddies inside one half are buddies inside the run
      rcases ih hdvd (hlow.trans hcover) with hone | ⟨p, j, hj, hp, h₁, h₂, hsub⟩
      · rcases ih hdvd' (hhigh.trans hcover) with htwo | ⟨p, j, hj, hp, h₁, h₂, hsub⟩
        · rcases hhalf q hdvd hlow hone with hall | hone
          · exact Or.inl hall
          · rcases hhalf _ hdvd' hhigh htwo with hall | htwo
            · exact Or.inl hall
            · exact Or.inr ⟨q, k, Nat.lt_succ_self k, hq, hone, htwo, subset_rfl⟩
        · exact Or.inr ⟨p, j, hj.trans (Nat.lt_succ_self k), hp, h₁, h₂, hsub.trans hhigh⟩
      · exact Or.inr ⟨p, j, hj.trans (Nat.lt_succ_self k), hp, h₁, h₂, hsub.trans hlow⟩

end Block

/-- Replacing members of a disjoint family by others that cover the same points keeps the family
disjoint. -/
theorem Set.PairwiseDisjoint.replace {ι α : Type*} {f : ι → Set α} {B R S : Set ι}
    (hB : B.PairwiseDisjoint f) (hR : R ⊆ B) (hS : S.PairwiseDisjoint f)
    (hcover : ⋃ b ∈ S, f b = ⋃ b ∈ R, f b) : (B \ R ∪ S).PairwiseDisjoint f := by
  refine Set.pairwiseDisjoint_union.mpr ⟨hB.subset Set.sdiff_subset, hS, ?_⟩
  rintro i ⟨hiB, hiR⟩ j hjS -
  rw [Set.disjoint_left]
  intro x hxi hxj
  have hx : x ∈ ⋃ b ∈ R, f b := hcover ▸ Set.mem_biUnion hjS hxj
  obtain ⟨r, hr, hxr⟩ := Set.mem_iUnion₂.mp hx
  exact hiR (hB.elim_set hiB (hR hr) x hxi hxr ▸ hr)

/-- Such a replacement covers the same points. -/
theorem Set.biUnion_replace {ι α : Type*} {f : ι → Set α} {B R S : Set ι} (hR : R ⊆ B)
    (hcover : ⋃ b ∈ S, f b = ⋃ b ∈ R, f b) : ⋃ b ∈ B \ R ∪ S, f b = ⋃ b ∈ B, f b := by
  rw [Set.biUnion_union, hcover, ← Set.biUnion_union, Set.sdiff_union_of_subset hR]

/-- Disjoint blocks below `N` have at most `N` pages together. -/
theorem Block.sum_pages_le {N : ℕ} {l : List Block} (hnodup : l.Nodup)
    (hdisj : {b | b ∈ l}.PairwiseDisjoint Block.pages) (hN : ∀ b ∈ l, b.base + 2 ^ b.order ≤ N) :
    (l.map fun b => 2 ^ b.order).sum ≤ N := by
  have hcard : ∀ b ∈ l.toFinset, (Finset.Ico b.base (b.base + 2 ^ b.order)).card = 2 ^ b.order := by
    intro b _
    rw [Nat.card_Ico, Nat.add_sub_cancel_left]
  calc (l.map fun b => 2 ^ b.order).sum
      = ∑ b ∈ l.toFinset, 2 ^ b.order := (List.sum_toFinset _ hnodup).symm
    _ = ∑ b ∈ l.toFinset, (Finset.Ico b.base (b.base + 2 ^ b.order)).card :=
        (Finset.sum_congr rfl hcard).symm
    _ = (l.toFinset.biUnion fun b => Finset.Ico b.base (b.base + 2 ^ b.order)).card := by
        refine (Finset.card_biUnion fun a ha b hb hne => ?_).symm
        have hab := hdisj (List.mem_toFinset.mp ha) (List.mem_toFinset.mp hb) hne
        rw [Function.onFun, ← Finset.disjoint_coe, Finset.coe_Ico, Finset.coe_Ico]
        exact hab
    _ ≤ (Finset.range N).card := by
        refine Finset.card_le_card fun x hx => ?_
        obtain ⟨b, hb, hxb⟩ := Finset.mem_biUnion.mp hx
        rw [Finset.mem_Ico] at hxb
        have := hN b (List.mem_toFinset.mp hb)
        rw [Finset.mem_range]
        omega
    _ = N := Finset.card_range N
