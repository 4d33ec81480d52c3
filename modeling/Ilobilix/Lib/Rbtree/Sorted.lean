import Ilobilix.Lib.Rbtree.Insert
import Mathlib.Data.List.Sort

/-!
# The order of the elements

With a strict weak order on the keys, the way down from the root ends after all the elements that are
not greater and before all those that are: the insertion is the one into a sorted list.
-/

namespace Ilobilix.Lib.Rbtree

open RedBlack

universe u

variable {α : Type u} {less : α → α → Bool} {a b c : α} {fs : RBPath α} {l l₁ l₂ : List α}

/-- No element comes after a greater one. -/
def Sorted (less : α → α → Bool) (l : List α) : Prop := l.Pairwise fun a b => less b a = false

section StrictWeak

variable [IsStrictWeakOrder α fun a b => less a b = true]

theorem less_or_less (h : less a c = true) (b : α) : less a b = true ∨ less b c = true := by
  by_contra hnot
  obtain ⟨hab, hbc⟩ := not_or.mp hnot
  have htrans : ∀ {x y z : α}, less x y = true → less y z = true → less x z = true :=
    fun hxy hyz => trans_of (fun a b => less a b = true) hxy hyz
  have hba : ¬ less b a = true := fun hba => hbc (htrans hba h)
  have hcb : ¬ less c b = true := fun hcb => hab (htrans h hcb)
  exact (@IsStrictWeakOrder.incomp_trans α (fun a b => less a b = true) _ a b c ⟨hab, hba⟩
    ⟨hbc, hcb⟩).1 h

theorem less_asymm (h : less a b = true) : less b a = false := by
  by_contra hba
  rw [Bool.not_eq_false] at hba
  exact irrefl_of (fun a b => less a b = true) a (trans_of (fun a b => less a b = true) h hba)

/-- Before the place nothing is greater than `a`, and after it everything is. -/
theorem Chosen.sides (h : Chosen less a fs)
    (hsorted : Sorted less (RBPath.before fs ++ RBPath.after fs)) :
    (∀ b ∈ RBPath.before fs, less a b = false) ∧ ∀ b ∈ RBPath.after fs, less a b = true := by
  induction fs with
  | nil => exact ⟨nofun, nofun⟩
  | cons f fs ih =>
      obtain ⟨hf, hfs⟩ := List.forall_mem_cons.mp h
      cases hside : f.side with
      | left =>
          have hless : less a f.elem = true := by
            by_contra hnot
            rw [if_neg hnot, hside] at hf
            cases hf
          simp only [RBPath.before, RBPath.after, hside, List.append_nil] at hsorted ⊢
          have hrest : Sorted less (RBPath.before fs ++ RBPath.after fs) :=
            hsorted.sublist (List.Sublist.append_left (List.sublist_append_right _ _) _)
          obtain ⟨hbefore, hafter⟩ := ih hfs hrest
          have hsibling : ∀ b ∈ f.sibling.toList, less b f.elem = false :=
            (List.pairwise_cons.mp (hsorted.sublist ((List.sublist_append_left _ _).trans
              (List.sublist_append_right _ _)))).1
          refine ⟨hbefore, fun b hb => ?_⟩
          rcases List.mem_append.mp hb with hb | hb
          · rcases List.mem_cons.mp hb with rfl | hb
            · exact hless
            · refine (less_or_less hless b).resolve_right fun hbf => ?_
              rw [hsibling b hb] at hbf
              cases hbf
          · exact hafter b hb
      | right =>
          have hless : less a f.elem = false := by
            by_contra hnot
            rw [Bool.not_eq_false] at hnot
            rw [if_pos hnot, hside] at hf
            cases hf
          simp only [RBPath.before, RBPath.after, hside, List.nil_append] at hsorted ⊢
          have hrest : Sorted less (RBPath.before fs ++ RBPath.after fs) :=
            hsorted.sublist (List.Sublist.append_right (List.sublist_append_left _ _) _)
          obtain ⟨hbefore, hafter⟩ := ih hfs hrest
          have hsibling : ∀ b ∈ f.sibling.toList, less f.elem b = false := fun b hb =>
            (List.pairwise_append.mp (hsorted.sublist ((List.sublist_append_right _ _).trans
              (List.sublist_append_left _ _)))).2.2 b hb f.elem (List.mem_singleton_self _)
          refine ⟨fun b hb => ?_, hafter⟩
          rcases List.mem_append.mp hb with hb | hb
          · exact hbefore b hb
          · rcases List.mem_append.mp hb with hb | hb
            · by_contra hab
              rw [Bool.not_eq_false] at hab
              rcases less_or_less hab f.elem with haf | hfb
              · rw [hless] at haf
                cases haf
              · rw [hsibling b hb] at hfb
                cases hfb
            · rw [List.mem_singleton.mp hb]
              exact hless

end StrictWeak

/-- The insertion into a sorted list, after all elements that are not greater. -/
theorem orderedInsert_append (h₁ : ∀ b ∈ l₁, less a b = false) (h₂ : ∀ b ∈ l₂, less a b = true) :
    (l₁ ++ l₂).orderedInsert (fun a b => less a b) a = l₁ ++ a :: l₂ := by
  induction l₁ with
  | nil =>
      cases l₂ with
      | nil => rfl
      | cons b l₂ => exact List.orderedInsert_cons_of_le _ l₂ (h₂ b List.mem_cons_self)
  | cons b l₁ ih =>
      have hb : ¬ less a b = true := by simp [h₁ b List.mem_cons_self]
      rw [List.cons_append, List.orderedInsert_cons, if_neg hb,
        ih fun c hc => h₁ c (List.mem_cons_of_mem b hc)]
      rfl

theorem newHead_eq (h₁ : ∀ b ∈ l₁, less a b = false) (h₂ : ∀ b ∈ l₂, less a b = true) :
    newHead less a (l₁ ++ l₂).head? = (l₁ ++ a :: l₂).head? := by
  cases l₁ with
  | nil =>
      cases l₂ with
      | nil => rfl
      | cons b l₂ => simp [newHead, h₂ b List.mem_cons_self]
  | cons b l₁ => simp [newHead, h₁ b List.mem_cons_self]

theorem Sorted.insert [IsStrictWeakOrder α fun a b => less a b = true] (h : Sorted less (l₁ ++ l₂))
    (h₁ : ∀ b ∈ l₁, less a b = false) (h₂ : ∀ b ∈ l₂, less a b = true) :
    Sorted less (l₁ ++ a :: l₂) := by
  obtain ⟨hl₁, hl₂, hcross⟩ := List.pairwise_append.mp h
  refine List.pairwise_append.mpr ⟨hl₁, List.pairwise_cons.mpr ⟨fun b hb => less_asymm (h₂ b hb), hl₂⟩,
    fun b hb c hc => ?_⟩
  rcases List.mem_cons.mp hc with rfl | hc
  · exact h₁ b hb
  · exact hcross b hb c hc

end Ilobilix.Lib.Rbtree
