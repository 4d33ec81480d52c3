import Ilobilix.Lib.Rbtree.Remove
import Mathlib.Logic.Function.Iterate

/-!
# Reading a tree

`Agrees s l` says that every way to read the elements of a tree gives the list `l`: the child links in
order, the neighbours, the iterators in both directions, the two ends and the length. An iterator at
the end stays there.
-/

namespace Ilobilix.Lib.Rbtree

open RedBlack

universe u

variable {α : Type u} [DecidableEq α] {s s' : State α} {t : RBTree α} {fs : RBPath α} {side : Side}
  {l : List α}

/-- The elements below a pointer, in the order of the child links. -/
def State.inorder (s : State α) : ℕ → Option α → List α
  | 0, _ => []
  | _ + 1, none => []
  | fuel + 1, some a => s.inorder fuel (s.child .left (some a)) ++
      a :: s.inorder fuel (s.child .right (some a))

structure Agrees (s : State α) (l : List α) : Prop where
  inorder : ∀ fuel, l.length < fuel → s.inorder fuel s.root = l
  threaded : Threaded s l
  begin : s.begin = l.head?
  forwards : ∀ l₁ a l₂, l = l₁ ++ a :: l₂ → ∀ n, (s.advance .right)^[n] (some a) = (a :: l₂)[n]?
  backwards : ∀ l₁ a l₂, l = l₁ ++ a :: l₂ → ∀ n,
    (s.advance .left)^[n] (some a) = (a :: l₁.reverse)[n]?
  atEnd : ∀ side, s.advance side none = none
  first : s.first = l.head?
  last : ∀ fuel, l.length < fuel → s.last fuel = .ok l.getLast?
  size : s.size = l.length

omit [DecidableEq α] in
theorem Shape.inorder {p : Option α} {fuel : ℕ} (h : Shape s p t) (hfuel : t.toList.length < fuel) :
    s.inorder fuel t.root = t.toList := by
  induction t generalizing p fuel with
  | nil =>
      cases fuel with
      | zero => cases hfuel
      | succ fuel => rfl
  | node c l a r ihl ihr =>
      obtain ⟨hnode, hl, hr⟩ := h
      have hfar : s.child .right (some a) = r.root := hnode.far
      cases fuel with
      | zero => cases hfuel
      | succ fuel =>
          simp only [RBTree.toList, List.length_append, List.length_cons] at hfuel
          rw [RBTree.root, State.inorder, hnode.near, hfar, ihl hl (by omega), ihr hr (by omega)]
          rfl

theorem advance_some (a : α) : s.advance side (some a) = s.next side (some a) := by
  unfold State.advance State.next
  rw [State.hooks_setHook_of_ne (Option.some_ne_none a)]

theorem advance_none : s.advance side none = none := by
  unfold State.advance State.next
  rw [State.hooks_setHook_self]
  cases side <;> rfl

theorem iterate_none (n : ℕ) : (s.advance side)^[n] none = none :=
  Function.iterate_fixed advance_none n

theorem iterate_right (h : Threaded s l) (l₁ : List α) (a : α) (l₂ : List α) (hl : l = l₁ ++ a :: l₂)
    (n : ℕ) : (s.advance .right)^[n] (some a) = (a :: l₂)[n]? := by
  induction n generalizing l₁ a l₂ with
  | zero => rfl
  | succ n ih =>
      have hnext : s.advance .right (some a) = l₂.head? := (advance_some a).trans (h l₁ a l₂ hl).2
      rw [Function.iterate_succ_apply, hnext, List.getElem?_cons_succ]
      cases l₂ with
      | nil => exact iterate_none n
      | cons b l₂ => exact ih (l₁ ++ [a]) b l₂ (by rw [hl]; simp)

theorem iterate_left (h : Threaded s l) (l₁ : List α) (a : α) (l₂ : List α) (hl : l = l₁ ++ a :: l₂)
    (n : ℕ) : (s.advance .left)^[n] (some a) = (a :: l₁.reverse)[n]? := by
  induction n generalizing l₁ a l₂ with
  | zero => rfl
  | succ n ih =>
      have hnext : s.advance .left (some a) = l₁.getLast? := (advance_some a).trans (h l₁ a l₂ hl).1
      rw [Function.iterate_succ_apply, hnext, List.getElem?_cons_succ]
      rcases List.eq_nil_or_concat l₁ with rfl | ⟨l₁, b, rfl⟩
      · exact iterate_none n
      · rw [List.concat_eq_append, List.getLast?_concat, List.reverse_append]
        exact ih l₁ b (a :: l₂) (by rw [hl]; simp)

theorem Tidy.last {fuel : ℕ} (h : Tidy s t) (hfuel : t.toList.length ≤ fuel) :
    s.last fuel = .ok t.toList.getLast? := by
  have hroot : s.root = t.root := h.place.hangs
  by_cases ht : t = .nil
  · subst ht
    exact if_pos hroot
  · have hne : s.root ≠ none := by
      rw [hroot]
      exact fun hnone => ht (RBTree.root_eq_none.mp hnone)
    have hplace : At (s.setHook none .new) t [] := h.place.congr
      (fun b _ => .of_hooks (State.hooks_setHook_of_ne (Option.some_ne_none b))) rfl
    obtain ⟨c, a, v, gs, rfl, hgs, hextreme⟩ := extreme_spec .right hplace ht hfuel
    have hlast : (RBPath.plug (.mk .right c a .nil v) gs).toList.getLast? = some a := by
      rw [RBPath.toList_plug, RBPath.after_of_right hgs]
      simp [RBTree.mk, RBTree.toList]
    unfold State.last State.outermost
    rw [if_neg hne, hlast, ← hextreme, ← hroot, bugOn, if_neg hne]
    rfl

/-- In a tree with the right head everything agrees. -/
theorem Tidy.agrees (h : Tidy s t) (hhead : s.head = t.toList.head?) : Agrees s t.toList where
  inorder fuel hfuel := by
    have hroot : s.root = t.root := h.place.hangs
    rw [hroot]
    exact h.place.shape.inorder hfuel
  threaded := h.threaded
  begin := hhead
  forwards := iterate_right h.threaded
  backwards := iterate_left h.threaded
  atEnd _ := advance_none
  first := hhead
  last _ hfuel := h.last (Nat.le_of_lt hfuel)
  size := h.size

end Ilobilix.Lib.Rbtree
