import Ilobilix.Foundation.Fuel
import Ilobilix.Foundation.Transition
import Ilobilix.Lib.Rbtree.Sorted
import Ilobilix.Lib.Rbtree.Traversal

/-!
# Runs of a tree

The system is a tree together with the keys of the elements and, for the statements, the list `elems`
of the elements that are in it. Between two operations the program may write anything but the hooks
of these elements; a write to one of their keys is a step of its own, `rekey`.
-/

namespace Ilobilix.Lib.Rbtree

open RedBlack

universe u v

variable {α : Type u} {κ : Type v} [DecidableEq α] {s s' : State α} {t : RBTree α} {fs : RBPath α}
  {side : Side} {a : α}

/-! ## Fuel -/

omit [DecidableEq α] in
theorem descend_mono (less : α → α → Bool) (z : α) (s : State α) (i y : Option α) :
    FuelMono .fuel fun fuel => State.descend less z s fuel i y := by
  intro fuel
  induction fuel generalizing i y with
  | zero => exact fun h => absurd rfl h
  | succ fuel ih =>
      intro h
      cases i with
      | none => rfl
      | some x => exact ih _ _ h

omit [DecidableEq α] in
theorem extreme_mono (side : Side) (s : State α) (i : Option α) :
    FuelMono .fuel fun fuel => State.extreme side s fuel i := by
  intro fuel
  induction fuel generalizing i with
  | zero => exact fun h => absurd rfl h
  | succ fuel ih =>
      dsimp only [State.extreme]
      split
      · exact ih _
      · exact fun _ => rfl

theorem insertFixup_mono (i : Option α) (s : State α) :
    FuelMono .fuel fun fuel => State.insertFixup fuel i s := by
  intro fuel
  induction fuel generalizing i s with
  | zero => exact fun h => absurd rfl h
  | succ fuel ih =>
      intro h
      dsimp only at h ⊢
      by_cases hred : s.colourOf (s.parent i) = .red
      · cases hturn : s.insertTurn i with
        | error e =>
            unfold State.insertFixup
            rw [if_pos hred, if_pos hred, hturn]
            rfl
        | ok r =>
            rw [insertFixup_succ hred hturn] at h ⊢
            rw [insertFixup_succ hred hturn]
            exact ih _ _ h
      · unfold State.insertFixup
        rw [if_neg hred, if_neg hred]

theorem removeFixup_mono (i : Option α) (s : State α) :
    FuelMono .fuel fun fuel => State.removeFixup fuel i s := by
  intro fuel
  induction fuel generalizing i s with
  | zero => exact fun h => absurd rfl h
  | succ fuel ih =>
      intro h
      dsimp only at h ⊢
      by_cases hi : i ≠ s.root ∧ s.colourOf i = .black
      · cases hturn : s.removeTurn i with
        | error e =>
            unfold State.removeFixup
            rw [if_pos hi, if_pos hi, hturn]
            rfl
        | ok r =>
            rw [removeFixup_succ hi hturn] at h ⊢
            rw [removeFixup_succ hi hturn]
            exact ih _ _ h
      · unfold State.removeFixup
        rw [if_neg hi, if_neg hi]

theorem insert_mono (less : α → α → Bool) (z : α) (s : State α) :
    FuelMono .fuel fun fuel => s.insert less fuel z := by
  have hbelow : ∀ s : State α, FuelMono .fuel fun fuel => s.insertBelow less fuel z := fun s =>
    (descend_mono less z s s.root none).bind fun y => insertFixup_mono _ _
  unfold State.insert
  dsimp only
  split
  · exact .const _
  · exact (hbelow _).bind fun s => .const _

theorem detach_mono (i : Option α) (s : State α) : FuelMono .fuel fun fuel => s.detach fuel i := by
  unfold State.detach
  split
  · exact .const _
  · split
    · exact .const _
    · exact ((FuelMono.const _).bind fun _ => extreme_mono _ _ _).bind fun y => .const _

theorem removeUnchecked_mono (i : Option α) (s : State α) :
    FuelMono .fuel fun fuel => s.removeUnchecked fuel i := by
  refine (FuelMono.const _).bind fun _ => (FuelMono.const _).bind fun s => ?_
  refine (detach_mono i s).bind fun r => ?_
  dsimp only
  split
  · exact removeFixup_mono _ _
  · exact .const _

theorem remove_mono (a : α) (s : State α) : FuelMono .fuel fun fuel => s.remove fuel a := by
  have hnode : FuelMono .fuel fun fuel => (s.setHook none .new).removeNode fuel (some a) :=
    (removeUnchecked_mono (some a) _).bind fun s => .const s.headCheck
  exact hnode.bind fun s => .const _

/-! ## The system -/

structure Machine (α : Type u) (κ : Type v) where
  tree : State α
  key : α → κ
  elems : List α

inductive Op (α : Type u)
  | insert (z : α)
  | remove (z : α)
  | write
  | rekey

namespace Machine

/-- `_less` on the elements, as their keys are now. -/
def less (m : Machine α κ) (less : κ → κ → Bool) (a b : α) : Bool := less (m.key a) (m.key b)

/-- The hooks of the elements in the tree, and the tree itself, are as before. -/
structure Untouched (m m' : Machine α κ) : Prop where
  elems : m'.elems = m.elems
  hooks : ∀ a ∈ m.elems, m'.tree.hooks (some a) = m.tree.hooks (some a)
  root : m'.tree.root = m.tree.root
  head : m'.tree.head = m.tree.head
  size : m'.tree.size = m.tree.size

/-- An element that is inserted is not in the tree, and one that is removed is. -/
def Step (less : κ → κ → Bool) (m : Machine α κ) : Op α → Machine α κ → Prop
  | .insert z, m' => z ∉ m.elems ∧
      Returns (fun fuel => m.tree.insert (m.less less) fuel z) m'.tree ∧ m'.key = m.key ∧
      m'.elems = m.elems.orderedInsert (fun a b => m.less less a b) z
  | .remove z, m' => z ∈ m.elems ∧ Returns (fun fuel => m.tree.remove fuel z) m'.tree ∧
      m'.key = m.key ∧ m'.elems = m.elems.erase z
  | .write, m' => m.Untouched m' ∧ ∀ a ∈ m.elems, m'.key a = m.key a
  | .rekey, m' => m.Untouched m'

end Machine

def system (α : Type u) [DecidableEq α] (less : κ → κ → Bool) :
    TransitionSystem (Machine α κ) (Op α) where
  init m := (∃ hooks, m.tree = .empty hooks) ∧ m.elems = []
  step := Machine.Step less

/-- The system in which the keys do not change while an element is in the tree. -/
def ordered (α : Type u) [DecidableEq α] (less : κ → κ → Bool) :
    TransitionSystem (Machine α κ) (Op α) := (system α less).restrict fun _ op => op ≠ .rekey

variable {less : κ → κ → Bool} {m m' : Machine α κ}

omit [DecidableEq α] in
theorem tidy_empty (hooks : Option α → Hook α) : Tidy (.empty hooks) .nil :=
  ⟨⟨trivial, rfl, List.nodup_nil⟩, ⟨rfl, 0, rfl⟩, Linked.nil, rfl, fun _ => rfl⟩

omit [DecidableEq α] in
theorem Tidy.untouched (h : Tidy m.tree t) (hperm : t.toList.Perm m.elems) (hm : m.Untouched m') :
    Tidy m'.tree t :=
  h.congr (fun a ha => hm.hooks a (hperm.mem_iff.mp ha)) hm.root hm.head hm.size

/-- One step keeps a tree in the hooks. -/
theorem step_tidy {op : Op α} (h : Tidy m.tree t) (hperm : t.toList.Perm m.elems)
    (hstep : Machine.Step less m op m') : ∃ t', Tidy m'.tree t' ∧ t'.toList.Perm m'.elems := by
  cases op with
  | insert z =>
      obtain ⟨hz, hreturns, -, helems⟩ := hstep
      obtain ⟨fuel, hfuel, hrun⟩ := hreturns.exists_lt t.toList.length
      obtain ⟨s', t', fs, hinsert, htidy, hplug, -, hlist, -⟩ := insert_spec (m.less less) h
        (fun hmem => hz (hperm.mem_iff.mp hmem)) hfuel
      obtain rfl : m'.tree = s' := Except.ok.inj (hrun.symm.trans hinsert)
      refine ⟨t', htidy, ?_⟩
      rw [hlist, helems]
      refine List.perm_middle.trans (List.Perm.trans ?_ (List.perm_orderedInsert _ z _).symm)
      refine List.Perm.cons z (List.Perm.trans ?_ hperm)
      rw [← hplug, RBPath.toList_plug]
      rfl
  | remove z =>
      obtain ⟨hz, hreturns, -, helems⟩ := hstep
      obtain ⟨fuel, hfuel, hrun⟩ := hreturns.exists_lt t.toList.length
      obtain ⟨s', t', htidy, hlist, -, -, -, hremove⟩ := remove_spec h (hperm.mem_iff.mpr hz) hfuel
      have hok := hrun.symm.trans hremove
      split at hok
      · cases hok
      · obtain rfl : m'.tree = s' := Except.ok.inj hok
        rw [helems]
        exact ⟨t', htidy, hlist ▸ hperm.erase z⟩
  | write => exact ⟨t, h.untouched hperm hstep.1, hstep.1.elems ▸ hperm⟩
  | rekey => exact ⟨t, h.untouched hperm hstep, hstep.elems ▸ hperm⟩

theorem reachable_tidy (h : (system α less).Reachable m) :
    ∃ t, Tidy m.tree t ∧ t.toList.Perm m.elems := by
  refine TransitionSystem.Reachable.invariant (I := fun m => ∃ t, Tidy m.tree t ∧
    t.toList.Perm m.elems) (fun m hm => ?_) (fun m op m' _ hI hstep => ?_) h
  case refine_2 =>
    obtain ⟨t, ht, hperm⟩ := hI
    exact step_tidy ht hperm hstep
  obtain ⟨⟨hooks, htree⟩, helems⟩ := hm
  rw [htree, helems]
  exact ⟨.nil, tidy_empty hooks, .nil⟩

/-- In order, the tree is the sorted list, and the head is its first element. -/
structure InOrder (less : κ → κ → Bool) (m : Machine α κ) (t : RBTree α) : Prop where
  tidy : Tidy m.tree t
  list : t.toList = m.elems
  sorted : Sorted (m.less less) m.elems
  head : m.tree.head = m.elems.head?

section Ordered

variable [IsStrictWeakOrder κ fun a b => less a b = true]

omit [DecidableEq α] in
theorem isStrictWeakOrder_less (m : Machine α κ) :
    IsStrictWeakOrder α fun a b => m.less less a b = true :=
  inferInstanceAs (IsStrictWeakOrder α (Order.Preimage m.key fun x y => less x y = true))

theorem step_inOrder {op : Op α} (h : InOrder less m t) (hop : op ≠ .rekey)
    (hstep : Machine.Step less m op m') : ∃ t', InOrder less m' t' := by
  have : IsStrictWeakOrder α fun a b => m.less less a b = true := isStrictWeakOrder_less m
  cases op with
  | insert z =>
      obtain ⟨hz, hreturns, hkey, helems⟩ := hstep
      obtain ⟨fuel, hfuel, hrun⟩ := hreturns.exists_lt t.toList.length
      obtain ⟨s', t', fs, hinsert, htidy, hplug, hchosen, hlist, -, hhead⟩ := insert_spec (m.less less)
        h.tidy (h.list ▸ hz) hfuel
      obtain rfl : m'.tree = s' := Except.ok.inj (hrun.symm.trans hinsert)
      have hsplit : m.elems = RBPath.before fs ++ RBPath.after fs := by
        rw [← h.list, ← hplug, RBPath.toList_plug]
        rfl
      have hsorted := h.sorted
      rw [hsplit] at hsorted
      obtain ⟨hbefore, hafter⟩ := hchosen.sides hsorted
      have helems' : m'.elems = RBPath.before fs ++ z :: RBPath.after fs := by
        rw [helems, hsplit, orderedInsert_append hbefore hafter]
      have hless : m'.less less = m.less less := by
        unfold Machine.less
        rw [hkey]
      refine ⟨t', htidy, hlist.trans helems'.symm, ?_, ?_⟩
      · rw [hless, helems']
        exact hsorted.insert hbefore hafter
      · rw [hhead, h.head, hsplit, newHead_eq hbefore hafter, helems']
  | remove z =>
      obtain ⟨hz, hreturns, hkey, helems⟩ := hstep
      obtain ⟨fuel, hfuel, hrun⟩ := hreturns.exists_lt t.toList.length
      obtain ⟨s', t', hremove, htidy, hlist, -, hhead⟩ := remove_ok h.tidy (h.head.trans (h.list ▸ rfl))
        (h.list ▸ hz) hfuel
      obtain rfl : m'.tree = s' := Except.ok.inj (hrun.symm.trans hremove)
      have hlist' : t'.toList = m'.elems := by rw [hlist, h.list, helems]
      have hless : m'.less less = m.less less := by
        unfold Machine.less
        rw [hkey]
      refine ⟨t', htidy, hlist', ?_, hhead.trans (congrArg List.head? hlist')⟩
      rw [hless, helems]
      exact h.sorted.sublist List.erase_sublist
  | write =>
      obtain ⟨hm, hkey⟩ := hstep
      refine ⟨t, h.tidy.untouched (h.list ▸ List.Perm.refl _) hm, h.list.trans hm.elems.symm, ?_, ?_⟩
      · rw [hm.elems]
        refine h.sorted.imp_of_mem fun {a b} ha hb hab => ?_
        unfold Machine.less at hab ⊢
        rw [hkey a ha, hkey b hb, hab]
      · rw [hm.head, hm.elems, h.head]
  | rekey => exact absurd rfl hop

end Ordered

theorem reachable_inOrder [IsStrictWeakOrder κ fun a b => less a b = true]
    (h : (ordered α less).Reachable m) : ∃ t, InOrder less m t := by
  refine TransitionSystem.Reachable.invariant (I := fun m => ∃ t, InOrder less m t)
    (fun m hm => ?_) (fun m op m' _ hI hstep => ?_) h
  · obtain ⟨⟨hooks, htree⟩, helems⟩ := hm
    refine ⟨.nil, ?_, helems.symm, ?_, ?_⟩
    · rw [htree]
      exact tidy_empty hooks
    · rw [helems]
      exact List.Pairwise.nil
    · rw [htree, helems]
      rfl
  · obtain ⟨t, ht⟩ := hI
    exact step_inOrder ht hstep.1 hstep.2

/-! ## The red-black tree -/

omit [DecidableEq α] in
/-- The parent links are the inverse of the child links. -/
theorem At.child_iff_parent (h : At s t []) (ha : a ∈ t.toList) (b : α) :
    (∃ side, s.child side (some a) = some b) ↔ b ∈ t.toList ∧ s.parent (some b) = some a := by
  constructor
  · rintro ⟨side, hchild⟩
    obtain ⟨c, l, r, fs, rfl⟩ := RBPath.exists_plug ha
    obtain ⟨x, y, heq⟩ := RBTree.mk_eq_mk .left side c a l r
    rw [heq] at h ⊢
    have hplace := at_whole.mp h
    have hx : x.root = some b := hplace.node.near.symm.trans hchild
    have hxnil : x ≠ .nil := by
      rintro rfl
      cases hx
    refine ⟨(RBPath.perm_plug _ fs).mem_iff.mpr (List.mem_append_left _ ?_), ?_⟩
    · exact RBTree.mem_mk.mpr (.inr (.inl (RBTree.mem_of_root hx)))
    · rw [← hx]
      exact (at_mk.mp hplace).parent_root hxnil
  · rintro ⟨hb, hparent⟩
    obtain ⟨c, l, r, fs, rfl⟩ := RBPath.exists_plug hb
    have hplace := at_whole.mp h
    have hfs : RBPath.parent fs = some a := hplace.node.parent.symm.trans hparent
    cases fs with
    | nil => cases hfs
    | cons f fs =>
        obtain rfl : f.elem = a := Option.some.inj hfs
        exact ⟨f.side, hplace.frame.near.trans RBTree.root_mk⟩

/-- The hooks of the elements `l` are the nodes of the red-black tree `t`. -/
structure RedBlackTree (s : State α) (l : List α) (t : RBTree α) : Prop where
  elems : t.toList.Perm l
  root : s.root = t.root
  /-- Each node has its parent, its children and its colour in its hook, and the root has no parent. -/
  shape : Shape s none t
  valid : t.IsRedBlack
  inverse : ∀ a ∈ l, ∀ b, (∃ side, s.child side (some a) = some b) ↔
    b ∈ l ∧ s.parent (some b) = some a

omit [DecidableEq α] in
theorem Tidy.redBlackTree (h : Tidy s t) {l : List α} (hperm : t.toList.Perm l) :
    RedBlackTree s l t where
  elems := hperm
  root := h.place.hangs
  shape := h.place.shape
  valid := h.valid
  inverse a ha b := by
    rw [h.place.child_iff_parent (hperm.mem_iff.mpr ha), hperm.mem_iff]

/-- `operator<` on the keys, as both queues of the scheduler have it. -/
theorem isStrictWeakOrder_lt (κ : Type v) [LinearOrder κ] :
    IsStrictWeakOrder κ fun a b => decide (a < b) = true := by
  simp only [decide_eq_true_eq]
  exact isStrictWeakOrder_of_isOrderConnected

/-- The tree of `0` and of `1`, which has come after it with the same key. -/
def pair : Machine ℕ ℕ where
  tree :=
    let insert z (s : State ℕ) := (s.insert (fun _ _ => false) 3 z).toOption.getD s
    insert 1 (insert 0 (.empty fun _ => .new))
  key _ := 0
  elems := [0, 1]

theorem reachable_pair : (ordered ℕ fun a b : ℕ => decide (a < b)).Reachable pair := by
  let m₀ : Machine ℕ ℕ := ⟨.empty fun _ => .new, fun _ => 0, []⟩
  let m₁ : Machine ℕ ℕ :=
    ⟨(m₀.tree.insert (fun _ _ => false) 3 0).toOption.getD m₀.tree, fun _ => 0, [0]⟩
  have h₀ : (ordered ℕ fun a b : ℕ => decide (a < b)).Reachable m₀ := .init ⟨⟨_, rfl⟩, rfl⟩
  have h₁ : (ordered ℕ fun a b : ℕ => decide (a < b)).Reachable m₁ :=
    h₀.step (l := .insert 0) ⟨nofun, by simp [m₀],
      (insert_mono _ _ _).returns_iff.mpr ⟨3, rfl⟩, rfl, rfl⟩
  exact h₁.step (l := .insert 1) ⟨nofun, by simp [m₁],
    (insert_mono _ _ _).returns_iff.mpr ⟨3, rfl⟩, rfl, rfl⟩

/-- Whatever the comparisons say, the hooks hold a red-black tree, no insertion stops, and a removal
can only stop at the check of the head at its end. With a strict weak order and keys that stay, it does
not stop there either. -/
theorem red_black_always (h : (system α less).Reachable m) :
    (∃ t, RedBlackTree m.tree m.elems t) ∧
    (∀ z ∉ m.elems, ∀ fuel, m.elems.length < fuel →
      ∃ s', m.tree.insert (m.less less) fuel z = .ok s' ∧ s'.colourOf none = .black) ∧
    (∀ z ∈ m.elems, ∀ fuel, m.elems.length < fuel →
      ∃ s', (m.tree.setHook none .new).removeUnchecked fuel (some z) = .ok s' ∧ s'.size ≠ 0 ∧
        s'.colourOf none = .black) ∧
    (IsStrictWeakOrder κ (fun a b => less a b = true) → (ordered α less).Reachable m →
      ∀ z ∈ m.elems, ∀ fuel, m.elems.length < fuel →
        ∃ s', m.tree.remove fuel z = .ok s' ∧ s'.colourOf none = .black) := by
  obtain ⟨t, ht, hperm⟩ := reachable_tidy h
  refine ⟨⟨t, ht.redBlackTree hperm⟩, fun z hz fuel hfuel => ?_, fun z hz fuel hfuel => ?_,
    fun _ hordered z hz fuel hfuel => ?_⟩
  · obtain ⟨s', t', fs, hinsert, -, -, -, -, hnil, -⟩ := insert_spec (m.less less) ht
      (fun hmem => hz (hperm.mem_iff.mp hmem)) (hperm.length_eq ▸ hfuel)
    exact ⟨s', hinsert, hnil⟩
  · obtain ⟨-, -, -, -, -, -, hunchecked, -⟩ := remove_spec ht (hperm.mem_iff.mpr hz)
      (hperm.length_eq ▸ hfuel)
    exact hunchecked
  · obtain ⟨t, ht⟩ := reachable_inOrder hordered
    obtain ⟨s', t', hremove, -, -, hnil, -⟩ := remove_ok ht.tidy (ht.head.trans (ht.list ▸ rfl))
      (ht.list ▸ hz) (ht.list ▸ hfuel)
    exact ⟨s', hremove, hnil⟩

theorem red_black_always_pair : (∃ t, RedBlackTree pair.tree [0, 1] t) ∧
    ∃ s', pair.tree.remove 3 0 = .ok s' ∧ s'.colourOf none = .black := by
  obtain ⟨htree, -, -, hremove⟩ := red_black_always reachable_pair.of_restrict
  exact ⟨htree, hremove (isStrictWeakOrder_lt ℕ) reachable_pair 0 (by decide) 3 (by decide)⟩

/-! ## The sorted list -/

/-- The tree is the sorted list of the elements. -/
theorem refines_sorted [IsStrictWeakOrder κ fun a b => less a b = true]
    (h : (ordered α less).Reachable m) : Sorted (m.less less) m.elems ∧ Agrees m.tree m.elems ∧
      (∀ z ∉ m.elems, ∃ s', Returns (fun fuel => m.tree.insert (m.less less) fuel z) s') ∧
      ∀ z ∈ m.elems, ∃ s', Returns (fun fuel => m.tree.remove fuel z) s' := by
  obtain ⟨t, ht⟩ := reachable_inOrder h
  have hhead : m.tree.head = t.toList.head? := ht.head.trans (ht.list ▸ rfl)
  refine ⟨ht.sorted, ht.list ▸ ht.tidy.agrees hhead, fun z hz => ?_, fun z hz => ?_⟩
  · obtain ⟨s', t', fs, hinsert, -⟩ := insert_spec (m.less less) ht.tidy (ht.list ▸ hz)
      (Nat.lt_succ_self _)
    exact ⟨s', (insert_mono _ z m.tree).returns_iff.mpr ⟨_, hinsert⟩⟩
  · obtain ⟨s', t', hremove, -⟩ := remove_ok ht.tidy hhead (ht.list ▸ hz) (Nat.lt_succ_self _)
    exact ⟨s', (remove_mono z m.tree).returns_iff.mpr ⟨_, hremove⟩⟩

theorem refines_sorted_pair : Agrees pair.tree [0, 1] ∧
    ∃ s', Returns (fun fuel => pair.tree.remove fuel 0) s' := by
  have := isStrictWeakOrder_lt ℕ
  obtain ⟨-, hagrees, -, hremove⟩ := refines_sorted reachable_pair
  exact ⟨hagrees, hremove 0 (by decide)⟩

/-- A step back from the end does not lead to the last element. -/
theorem prev_end_pair : ∃ m : Machine ℕ ℕ, (ordered ℕ fun a b : ℕ => decide (a < b)).Reachable m ∧
    m.elems = [0, 1] ∧ (m.tree.advance .left)^[1] none ≠ m.elems.reverse[0]? := by
  refine ⟨pair, reachable_pair, rfl, ?_⟩
  rw [iterate_none]
  decide

end Ilobilix.Lib.Rbtree
