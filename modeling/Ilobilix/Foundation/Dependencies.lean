import Mathlib.Data.Fintype.Order
import Mathlib.Logic.Relation
import Mathlib.Order.WellFounded

/-!
# Dependency orders

`r b a` says that `a` depends on `b`. A list is a dependency order if everything in it comes after all
that it depends on. What is on a cycle is in no dependency order, and neither is what depends on it.
`DependencyOrder.notMem_iff` is the converse for a list that cannot be continued: whatever is left out
depends on a cycle, or on something that was excluded from the start.
-/

open Relation

variable {α : Type*} {r : α → α → Prop} {l : List α} {a b : α}

/-- Every element of the list comes after all that it depends on. -/
def DependencyOrder (r : α → α → Prop) (l : List α) : Prop :=
  ∀ l₁ a l₂, l = l₁ ++ a :: l₂ → ∀ b, r b a → b ∈ l₁

/-- The element is on or behind a cycle, or behind an element of `P`. -/
def Behind (r : α → α → Prop) (P : α → Prop) (a : α) : Prop :=
  ∃ c, ReflTransGen r c a ∧ (TransGen r c c ∨ P c)

/-- In a finite set in which everything depends on something, everything is on or behind a cycle. -/
theorem exists_cycle_of_forall_pred {s : Set α} (hs : s.Finite) (hpred : ∀ a ∈ s, ∃ b ∈ s, r b a)
    (ha : a ∈ s) : ∃ c, ReflTransGen r c a ∧ TransGen r c c := by
  by_contra hnone
  -- without a cycle behind `a`, the dependencies below `a` are well-founded, and a least one is stuck
  let below : Set α := {c | c ∈ s ∧ ReflTransGen r c a}
  have hbelow : below.Finite := hs.subset fun c hc => hc.1
  have : Finite below := hbelow
  let dep : below → below → Prop := fun c d => TransGen r c.1 d.1
  have : IsTrans below dep := ⟨fun _ _ _ hcd hde => TransGen.trans hcd hde⟩
  have : Std.Irrefl dep := ⟨fun c hc => hnone ⟨c.1, c.2.2, hc⟩⟩
  have hwf : WellFounded dep := Finite.wellFounded_of_trans_of_irrefl dep
  obtain ⟨c, -, hmin⟩ := hwf.has_min Set.univ ⟨⟨a, ha, .refl⟩, trivial⟩
  obtain ⟨b, hb, hbc⟩ := hpred c.1 c.2.1
  exact hmin ⟨b, hb, .head hbc c.2.2⟩ trivial (.single hbc)

namespace DependencyOrder

theorem nil : DependencyOrder r [] := by
  intro l₁ a l₂ h
  exact absurd h.symm (by simp)

/-- An element can be put at the end if all that it depends on is there. -/
theorem concat (h : DependencyOrder r l) (ha : ∀ b, r b a → b ∈ l) : DependencyOrder r (l ++ [a]) := by
  intro l₁ c l₂ heq b hbc
  rcases List.append_eq_append_iff.mp heq with ⟨m, rfl, hm⟩ | ⟨m, rfl, hm⟩
  · -- the element is the new one
    rcases m with _ | ⟨d, m⟩
    · cases hm
      simpa using ha b hbc
    · simp at hm
  · rcases m with _ | ⟨d, m⟩
    · cases hm
      simpa using ha b hbc
    · cases hm
      exact h l₁ c m rfl b hbc

theorem mem_of_rel (h : DependencyOrder r l) (ha : a ∈ l) (hba : r b a) : b ∈ l := by
  obtain ⟨l₁, l₂, rfl⟩ := List.append_of_mem ha
  exact List.mem_append_left _ (h l₁ a l₂ rfl b hba)

theorem mem_of_reflTransGen (h : DependencyOrder r l) (hba : ReflTransGen r b a) (ha : a ∈ l) :
    b ∈ l := by
  induction hba with
  | refl => exact ha
  | tail _ hca ih => exact ih (h.mem_of_rel ha hca)

/-- What an element depends on has its first position before the first position of the element. -/
theorem idxOf_lt [DecidableEq α] (h : DependencyOrder r l) (ha : a ∈ l) (hba : TransGen r b a) :
    l.idxOf b < l.idxOf a := by
  have hstep : ∀ {a b}, a ∈ l → r b a → l.idxOf b < l.idxOf a := by
    intro a b ha hba
    obtain ⟨l₁, l₂, rfl, hfirst⟩ := List.eq_append_cons_of_mem ha
    have hb := h l₁ a l₂ rfl b hba
    rw [List.idxOf_append_of_mem hb, List.idxOf_append_of_notMem hfirst]
    exact Nat.lt_add_right _ (List.idxOf_lt_length_of_mem hb)
  induction hba with
  | single hba => exact hstep ha hba
  | tail _ hca ih => exact (ih (h.mem_of_rel ha hca)).trans (hstep ha hca)

theorem not_cycle (h : DependencyOrder r l) (ha : a ∈ l) : ¬ TransGen r a a := by
  classical
  intro hcycle
  exact lt_irrefl _ (h.idxOf_lt ha hcycle)

/-- If everything that is left out and not excluded depends on something else that is left out, then
left out is exactly what is on or behind a cycle or behind something excluded. -/
theorem notMem_iff (h : DependencyOrder r l) {s : Set α} {P : α → Prop} (hs : s.Finite)
    (hP : ∀ a, P a → a ∉ l) (hpred : ∀ a ∈ s, a ∉ l → ¬ P a → ∃ b ∈ s, b ∉ l ∧ r b a) (ha : a ∈ s) :
    a ∉ l ↔ Behind r P a := by
  constructor
  · intro hout
    by_contra hnot
    -- what is left out and does not depend on `P` has no first element
    let stuck : Set α := {c | c ∈ s ∧ c ∉ l ∧ ReflTransGen r c a}
    obtain ⟨c, hca, hcycle⟩ := exists_cycle_of_forall_pred (s := stuck) (r := r) (a := a)
      (hs.subset fun c hc => hc.1) (fun c hc => by
        obtain ⟨b, hb, hbout, hbc⟩ := hpred c hc.1 hc.2.1 fun hPc => hnot ⟨c, hc.2.2, Or.inr hPc⟩
        exact ⟨b, ⟨hb, hbout, .head hbc hc.2.2⟩, hbc⟩)
      ⟨ha, hout, .refl⟩
    exact hnot ⟨c, hca, Or.inl hcycle⟩
  · rintro ⟨c, hca, hcycle | hPc⟩ hmem
    · exact h.not_cycle (h.mem_of_reflTransGen hca hmem) hcycle
    · exact hP c hPc (h.mem_of_reflTransGen hca hmem)

end DependencyOrder
