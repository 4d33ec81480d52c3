import Ilobilix.Foundation.Except
import Ilobilix.Foundation.LinkedList
import Ilobilix.Lib.Rbtree.Model
import Mathlib.Tactic.Tauto

/-!
# Trees in the hooks

`At s t fs` says that the hooks spell out the subtree `t` with the path `fs` above it. Going down into
a child and up again keeps it, a colour changes it at the node, and `At.rotate` is a rotation. What
the elements have as their neighbours in the list is left alone by all of this: `SameOrder`.
-/

namespace Ilobilix.Lib.Rbtree

open RedBlack

universe u

variable {α : Type u} {s s' : State α} {side side' : Side} {i j v : Option α}

/-! ## Frames -/

/-- The links of the tree and the colour at a pointer are kept. -/
structure SameLinks (s s' : State α) (i : Option α) : Prop where
  parent : s'.parent i = s.parent i
  child : ∀ side, s'.child side i = s.child side i
  colour : s'.colourOf i = s.colourOf i

theorem SameLinks.refl (s : State α) (i : Option α) : SameLinks s s i := ⟨rfl, fun _ => rfl, rfl⟩

theorem SameLinks.trans {s'' : State α} (h : SameLinks s s' i) (h' : SameLinks s' s'' i) :
    SameLinks s s'' i :=
  ⟨h'.parent.trans h.parent, fun side => (h'.child side).trans (h.child side),
    h'.colour.trans h.colour⟩

/-- The list and its length are kept. -/
structure SameOrder (s s' : State α) : Prop where
  next : ∀ side i, s'.next side i = s.next side i
  head : s'.head = s.head
  size : s'.size = s.size

theorem SameOrder.refl (s : State α) : SameOrder s s := ⟨fun _ _ => rfl, rfl, rfl⟩

theorem SameOrder.trans {s'' : State α} (h : SameOrder s s') (h' : SameOrder s' s'') :
    SameOrder s s'' :=
  ⟨fun side i => (h'.next side i).trans (h.next side i), h'.head.trans h.head,
    h'.size.trans h.size⟩

/-- What a change to the tree keeps: the list, and the hook of the null pointer. -/
structure Kept (s s' : State α) : Prop where
  order : SameOrder s s'
  nil : s'.hooks none = s.hooks none

theorem Kept.trans {s'' : State α} (h : Kept s s') (h' : Kept s' s'') : Kept s s'' :=
  ⟨h.order.trans h'.order, h'.nil.trans h.nil⟩

theorem Kept.colour_nil (h : Kept s s') : s'.colourOf none = s.colourOf none :=
  congrArg Hook.colour h.nil

/-- The neighbours of the elements spell out the list. -/
def Threaded (s : State α) (l : List α) : Prop :=
  Linked (fun a => s.next .right (some a)) (fun a => s.next .left (some a)) l

theorem Threaded.congr {l : List α} (h : Threaded s l)
    (hs : ∀ side, ∀ a ∈ l, s'.next side (some a) = s.next side (some a)) : Threaded s' l :=
  Linked.congr h (hs .right) (hs .left)

/-! ## Subtrees and paths -/

/-- The hook of an element in the tree. -/
structure Node (s : State α) (a : α) (parent : Option α) (side : Side) (c : Colour)
    (near far : Option α) : Prop where
  parent : s.parent (some a) = parent
  near : s.child side (some a) = near
  far : s.child side.other (some a) = far
  colour : s.colourOf (some a) = c

theorem Node.other {a : α} {p x y : Option α} {c : Colour} (h : Node s a p side c x y) :
    Node s a p side.other c y x :=
  ⟨h.parent, h.far, by rw [Side.other_other, h.near], h.colour⟩

theorem Node.congr {a : α} {p x y : Option α} {c : Colour} (h : Node s a p side c x y)
    (hs : SameLinks s s' (some a)) : Node s' a p side c x y :=
  ⟨hs.parent.trans h.parent, (hs.child _).trans h.near, (hs.child _).trans h.far,
    hs.colour.trans h.colour⟩

/-- The subtree below `parent`. -/
def Shape (s : State α) : Option α → RBTree α → Prop
  | _, .nil => True
  | parent, .node c l a r => Node s a parent .left c l.root r.root ∧
      Shape s (some a) l ∧ Shape s (some a) r

/-- The path above a place that holds `hole`. -/
def Hangs (s : State α) : Option α → RBPath α → Prop
  | hole, [] => s.root = hole
  | hole, f :: fs => Node s f.elem (RBPath.parent fs) f.side f.colour hole f.sibling.root ∧
      Shape s (some f.elem) f.sibling ∧ Hangs s (some f.elem) fs

structure At (s : State α) (t : RBTree α) (fs : RBPath α) : Prop where
  shape : Shape s (RBPath.parent fs) t
  hangs : Hangs s t.root fs
  distinct : (t.toList ++ RBPath.elems fs).Nodup

variable {c : Colour} {a : α} {x y t : RBTree α} {fs : RBPath α} {p : Option α}

theorem shape_mk : Shape s p (.mk side c a x y) ↔
    Node s a p side c x.root y.root ∧ Shape s (some a) x ∧ Shape s (some a) y := by
  cases side with
  | left => exact Iff.rfl
  | right =>
      constructor
      · rintro ⟨hnode, hy, hx⟩
        exact ⟨hnode.other, hx, hy⟩
      · rintro ⟨hnode, hx, hy⟩
        exact ⟨hnode.other, hy, hx⟩

theorem Shape.congr (h : Shape s p t) (hs : ∀ a ∈ t.toList, SameLinks s s' (some a)) :
    Shape s' p t := by
  induction t generalizing p with
  | nil => trivial
  | node c l a r ihl ihr =>
      obtain ⟨hnode, hl, hr⟩ := h
      simp only [RBTree.toList, List.mem_append, List.mem_cons] at hs
      exact ⟨hnode.congr (hs a (by simp)), ihl hl fun b hb => hs b (.inl hb),
        ihr hr fun b hb => hs b (.inr (.inr hb))⟩

/-- The subtree gets another parent. -/
theorem Shape.reparent {q : Option α} (h : Shape s p t) (hnodup : t.toList.Nodup)
    (hs : ∀ a ∈ t.toList, t.root ≠ some a → SameLinks s s' (some a))
    (hroot : ∀ a, t.root = some a → s'.parent (some a) = q ∧
      (∀ side, s'.child side (some a) = s.child side (some a)) ∧
      s'.colourOf (some a) = s.colourOf (some a)) : Shape s' q t := by
  cases t with
  | nil => trivial
  | node c l a r =>
      obtain ⟨hnode, hl, hr⟩ := h
      obtain ⟨hparent, hchild, hcolour⟩ := hroot a rfl
      have hnotMem : a ∉ l.toList ∧ a ∉ r.toList := by
        have hperm : (a :: (l.toList ++ r.toList)).Nodup := List.perm_middle.nodup_iff.mp hnodup
        simpa using (List.nodup_cons.mp hperm).1
      refine ⟨⟨hparent, (hchild _).trans hnode.near, (hchild _).trans hnode.far,
        hcolour.trans hnode.colour⟩, hl.congr fun b hb => hs b (by simp [RBTree.toList, hb]) ?_,
        hr.congr fun b hb => hs b (by simp [RBTree.toList, hb]) ?_⟩
      · rintro heq
        cases heq
        exact hnotMem.1 hb
      · rintro heq
        cases heq
        exact hnotMem.2 hb

theorem Hangs.congr (h : Hangs s p fs) (hs : ∀ a ∈ RBPath.elems fs, SameLinks s s' (some a))
    (hroot : s'.root = s.root) : Hangs s' p fs := by
  induction fs generalizing p with
  | nil => exact hroot.trans h
  | cons f fs ih =>
      obtain ⟨hnode, hshape, hrest⟩ := h
      simp only [RBPath.elems, List.flatMap_cons, List.mem_append, List.mem_cons] at hs
      exact ⟨hnode.congr (hs _ (by simp)), hshape.congr fun b hb => hs b (.inl (.inr hb)),
        ih hrest fun b hb => hs b (.inr hb)⟩

theorem At.congr (h : At s t fs) (hs : ∀ a ∈ t.toList ++ RBPath.elems fs, SameLinks s s' (some a))
    (hroot : s'.root = s.root) : At s' t fs :=
  ⟨h.shape.congr fun a ha => hs a (List.mem_append_left _ ha),
    h.hangs.congr (fun a ha => hs a (List.mem_append_right _ ha)) hroot, h.distinct⟩

/-- A place and the place of its child. -/
theorem at_mk : At s (.mk side c a x y) fs ↔ At s x (⟨side, c, a, y⟩ :: fs) := by
  have hperm : ((RBTree.mk side c a x y).toList ++ RBPath.elems fs).Perm
      (x.toList ++ RBPath.elems (⟨side, c, a, y⟩ :: fs)) := by
    refine (RBTree.perm_mk.append_right _).trans ?_
    rw [RBPath.elems, RBPath.elems, List.flatMap_cons, List.cons_append, List.append_assoc]
    exact List.perm_middle.symm
  constructor
  · rintro ⟨hshape, hhangs, hdistinct⟩
    obtain ⟨hnode, hx, hy⟩ := shape_mk.mp hshape
    rw [RBTree.root_mk] at hhangs
    exact ⟨hx, ⟨hnode, hy, hhangs⟩, hperm.nodup_iff.mp hdistinct⟩
  · rintro ⟨hx, ⟨hnode, hy, hhangs⟩, hdistinct⟩
    refine ⟨shape_mk.mpr ⟨hnode, hx, hy⟩, ?_, hperm.nodup_iff.mpr hdistinct⟩
    rwa [RBTree.root_mk]

/-- A place and the place beside it. -/
theorem at_sibling : At s x (⟨side, c, a, y⟩ :: fs) ↔ At s y (⟨side.other, c, a, x⟩ :: fs) := by
  rw [← at_mk, ← at_mk, RBTree.mk_other]

theorem at_plug {fs' : RBPath α} : At s (RBPath.plug t fs) fs' ↔ At s t (fs ++ fs') := by
  induction fs generalizing t with
  | nil => exact Iff.rfl
  | cons f fs ih => exact ih.trans at_mk

theorem at_whole : At s (RBPath.plug t fs) [] ↔ At s t fs := by rw [at_plug, List.append_nil]

namespace At

theorem node (h : At s (.mk side c a x y) fs) : Node s a (RBPath.parent fs) side c x.root y.root :=
  (shape_mk.mp h.shape).1

/-- The place that the path is about. -/
theorem frame {f : Frame α} (h : At s t (f :: fs)) :
    Node s f.elem (RBPath.parent fs) f.side f.colour t.root f.sibling.root := h.hangs.1

/-- The elements are different ones. -/
theorem ne_of_mem (h : At s t fs) {b d : α} (hb : b ∈ t.toList) (hd : d ∈ RBPath.elems fs) :
    b ≠ d := fun heq => (List.nodup_append.mp h.distinct).2.2 b hb d hd heq

theorem parent_root (h : At s t fs) (ht : t ≠ .nil) : s.parent t.root = RBPath.parent fs := by
  obtain ⟨c, a, x, y, rfl⟩ := RBTree.exists_mk .left ht
  exact h.node.parent

theorem colourOf_root (h : At s t fs) (hnil : s.colourOf none = .black) :
    s.colourOf t.root = t.colour := by
  cases t with
  | nil => exact hnil
  | node c l a r => exact h.shape.1.colour

/-- Two places beside each other are not both empty, or are not the same element. -/
theorem root_ne_sibling {f : Frame α} (h : At s t (f :: fs)) (hnil : t ≠ .nil ∨ f.sibling ≠ .nil) :
    t.root ≠ f.sibling.root := by
  rintro heq
  cases t with
  | nil => exact hnil.elim (absurd rfl) fun hs => hs (RBTree.root_eq_none.mp heq.symm)
  | node c l a r =>
      have hmem : a ∈ f.sibling.toList := RBTree.mem_of_root heq.symm
      exact h.ne_of_mem (RBTree.mem_of_root rfl) (by simp [RBPath.elems, hmem]) rfl

/-- A place below the root is not the root. -/
theorem root_ne {f : Frame α} (h : At s t (f :: fs)) : t.root ≠ s.root := by
  obtain ⟨b, hb, hroot⟩ := RBPath.root_plug t f fs
  have hwhole : s.root = (RBPath.plug t (f :: fs)).root := (at_whole.mpr h).hangs
  rw [← hwhole] at hroot
  rintro heq
  exact h.ne_of_mem (RBTree.mem_of_root (heq.trans hroot)) hb rfl

/-- The root of the whole tree has no parent. -/
theorem root_parent (h : At s t fs) (ht : t ≠ .nil) : s.parent s.root = none := by
  induction fs generalizing t with
  | nil =>
      have hroot : s.root = t.root := h.hangs
      rw [hroot, h.parent_root ht]
      rfl
  | cons f fs ih =>
      exact ih (at_mk.mpr h) RBTree.mk_ne_nil

end At

namespace State

/-- A write to `_head`. -/
def setHead (v : Option α) (s : State α) : State α := { s with head := v }

@[simp] theorem parent_setHead : (s.setHead v).parent i = s.parent i := rfl
@[simp] theorem child_setHead : (s.setHead v).child side i = s.child side i := rfl
@[simp] theorem next_setHead : (s.setHead v).next side i = s.next side i := rfl
@[simp] theorem colourOf_setHead : (s.setHead v).colourOf i = s.colourOf i := rfl
@[simp] theorem root_setHead : (s.setHead v).root = s.root := rfl
@[simp] theorem head_setHead : (s.setHead v).head = v := rfl
@[simp] theorem size_setHead : (s.setHead v).size = s.size := rfl

end State

variable [DecidableEq α]

/-- The test by which the loops tell the two sides apart. -/
theorem At.side_eq {f : Frame α} (h : At s t (f :: fs)) (hnil : t ≠ .nil ∨ f.sibling ≠ .nil) :
    (if t.root = s.child .left (some f.elem) then Side.left else .right) = f.side := by
  have hne := h.root_ne_sibling hnil
  have hnear := h.frame.near
  have hfar := h.frame.far
  cases hside : f.side with
  | left =>
      rw [hside] at hnear
      rw [hnear, if_pos rfl]
  | right =>
      rw [hside] at hfar
      rw [show s.child .left (some f.elem) = f.sibling.root from hfar, if_neg hne]

/-! ## Writing a field -/

namespace State

@[simp] theorem parent_setParent :
    (s.setParent i v).parent j = if j = i then v else s.parent j := by
  unfold setParent setHook parent
  by_cases h : j = i <;> simp [h]

@[simp] theorem child_setParent : (s.setParent i v).child side j = s.child side j := by
  unfold setParent setHook child
  by_cases h : j = i <;> simp [h]

@[simp] theorem next_setParent : (s.setParent i v).next side j = s.next side j := by
  unfold setParent setHook next
  by_cases h : j = i <;> simp [h]

@[simp] theorem colourOf_setParent : (s.setParent i v).colourOf j = s.colourOf j := by
  unfold setParent setHook colourOf
  by_cases h : j = i <;> simp [h]

@[simp] theorem parent_setChild : (s.setChild side i v).parent j = s.parent j := by
  unfold setChild setHook parent
  by_cases h : j = i <;> cases side <;> simp [h]

@[simp] theorem child_setChild : (s.setChild side i v).child side' j =
    if side' = side ∧ j = i then v else s.child side' j := by
  unfold setChild setHook child
  by_cases h : j = i <;> cases side <;> cases side' <;> simp [h]

@[simp] theorem next_setChild : (s.setChild side i v).next side' j = s.next side' j := by
  unfold setChild setHook next
  by_cases h : j = i <;> cases side <;> simp [h]

@[simp] theorem colourOf_setChild : (s.setChild side i v).colourOf j = s.colourOf j := by
  unfold setChild setHook colourOf
  by_cases h : j = i <;> cases side <;> simp [h]

@[simp] theorem parent_setNext : (s.setNext side i v).parent j = s.parent j := by
  unfold setNext setHook parent
  by_cases h : j = i <;> cases side <;> simp [h]

@[simp] theorem child_setNext : (s.setNext side i v).child side' j = s.child side' j := by
  unfold setNext setHook child
  by_cases h : j = i <;> cases side <;> simp [h]

@[simp] theorem next_setNext : (s.setNext side i v).next side' j =
    if side' = side ∧ j = i then v else s.next side' j := by
  unfold setNext setHook next
  by_cases h : j = i <;> cases side <;> cases side' <;> simp [h]

@[simp] theorem colourOf_setNext : (s.setNext side i v).colourOf j = s.colourOf j := by
  unfold setNext setHook colourOf
  by_cases h : j = i <;> cases side <;> simp [h]

variable {c : Colour}

@[simp] theorem parent_setColour : (s.setColour i c).parent j = s.parent j := by
  unfold setColour setHook parent
  by_cases h : j = i <;> simp [h]

@[simp] theorem child_setColour : (s.setColour i c).child side j = s.child side j := by
  unfold setColour setHook child
  by_cases h : j = i <;> simp [h]

@[simp] theorem next_setColour : (s.setColour i c).next side j = s.next side j := by
  unfold setColour setHook next
  by_cases h : j = i <;> simp [h]

@[simp] theorem colourOf_setColour :
    (s.setColour i c).colourOf j = if j = i then c else s.colourOf j := by
  unfold setColour setHook colourOf
  by_cases h : j = i <;> simp [h]

theorem hooks_setHook_self {h : Hook α} : (s.setHook i h).hooks i = h := Function.update_self _ _ _

theorem hooks_setHook_of_ne {h : Hook α} (hij : j ≠ i) : (s.setHook i h).hooks j = s.hooks j :=
  Function.update_of_ne hij _ _

/-- A write through a pointer that is not null leaves the hook of the null pointer alone. -/
theorem hooks_none_setParent (hi : i ≠ none) : (s.setParent i v).hooks none = s.hooks none :=
  hooks_setHook_of_ne hi.symm

theorem hooks_none_setChild (hi : i ≠ none) : (s.setChild side i v).hooks none = s.hooks none :=
  hooks_setHook_of_ne hi.symm

@[simp] theorem head_setNext : (s.setNext side i v).head = s.head := rfl
@[simp] theorem size_setNext : (s.setNext side i v).size = s.size := rfl

@[simp] theorem root_setHook {h : Hook α} : (s.setHook i h).root = s.root := rfl
@[simp] theorem root_setParent : (s.setParent i v).root = s.root := rfl
@[simp] theorem root_setChild : (s.setChild side i v).root = s.root := rfl
@[simp] theorem root_setNext : (s.setNext side i v).root = s.root := rfl
@[simp] theorem root_setColour : (s.setColour i c).root = s.root := rfl

end State
/-! ## Replacing a child -/

namespace State

variable {u : Option α}

theorem replace_of_none (h : s.parent u = none) : s.replace side u v = { s with root := v } :=
  if_pos h

theorem parent_replace : (s.replace side u v).parent j = s.parent j := by
  unfold replace
  split
  · rfl
  · split <;> exact parent_setChild

theorem colourOf_replace : (s.replace side u v).colourOf j = s.colourOf j := by
  unfold replace
  split
  · rfl
  · split <;> exact colourOf_setChild

theorem child_replace_of_ne (h : j ≠ s.parent u) :
    (s.replace side u v).child side' j = s.child side' j := by
  unfold replace
  split
  · rfl
  · split <;> simp [h]

end State

theorem State.hooks_none_replace {u : Option α} :
    (s.replace side u v).hooks none = s.hooks none := by
  unfold State.replace
  split
  · rfl
  · rename_i hparent
    split <;> exact State.hooks_none_setChild hparent

theorem SameOrder.setParent : SameOrder s (s.setParent i v) :=
  ⟨fun _ _ => State.next_setParent, rfl, rfl⟩

theorem SameOrder.setChild : SameOrder s (s.setChild side i v) :=
  ⟨fun _ _ => State.next_setChild, rfl, rfl⟩

theorem SameOrder.setColour {c : Colour} : SameOrder s (s.setColour i c) :=
  ⟨fun _ _ => State.next_setColour, rfl, rfl⟩

theorem SameOrder.replace {u : Option α} : SameOrder s (s.replace side u v) := by
  unfold State.replace
  split
  · exact ⟨fun _ _ => rfl, rfl, rfl⟩
  · split <;> exact SameOrder.setChild

/-- The link to an element in the tree gets another value. -/
theorem Hangs.replace (h : Hangs s (some a) fs) (hparent : s.parent (some a) = RBPath.parent fs)
    (hdistinct : (a :: RBPath.elems fs).Nodup) (side : Side) (v : Option α) :
    Hangs (s.replace side (some a) v) v fs := by
  cases fs with
  | nil =>
      rw [State.replace_of_none hparent]
      rfl
  | cons f fs =>
      obtain ⟨hnode, hshape, hrest⟩ := h
      rw [RBPath.elems, List.flatMap_cons, ← RBPath.elems] at hdistinct
      obtain ⟨ha, hdistinct⟩ := List.nodup_cons.mp hdistinct
      obtain ⟨hf, -⟩ := List.nodup_cons.mp hdistinct
      simp only [List.cons_append, List.mem_cons, List.mem_append, not_or] at ha
      have hreplace : s.replace side (some a) v = s.setChild f.side (some f.elem) v := by
        have hp : s.parent (some a) = some f.elem := hparent
        unfold State.replace
        rw [hp, if_neg (Option.some_ne_none _)]
        rcases Side.eq_or_other f.side side with heq | heq
        · rw [← heq, hnode.near, if_pos rfl]
        · have hside : side = f.side.other := by rw [heq, Side.other_other]
          rw [hside, hnode.far, Side.other_other, if_neg fun hroot => ?_]
          exact ha.2.1 (RBTree.mem_of_root hroot.symm)
      have hsame : ∀ b, b ≠ f.elem →
          SameLinks s (s.setChild f.side (some f.elem) v) (some b) := fun b hb =>
        ⟨State.parent_setChild, fun side => by simp [hb], State.colourOf_setChild⟩
      rw [hreplace]
      refine ⟨⟨?_, ?_, ?_, ?_⟩, hshape.congr fun b hb => hsame b ?_,
        hrest.congr (fun b hb => hsame b ?_) rfl⟩
      · rw [State.parent_setChild, hnode.parent]
      · simp
      · simp [Side.other_ne, hnode.far]
      · rw [State.colourOf_setChild, hnode.colour]
      · rintro rfl
        exact hf (List.mem_append_left _ hb)
      · rintro rfl
        exact hf (List.mem_append_right _ hb)

/-! ## Rotations -/

omit [DecidableEq α] in
theorem ne_parent {b : α} (hb : b ∉ RBPath.elems fs) : some b ≠ RBPath.parent fs := by
  cases fs with
  | nil => exact nofun
  | cons f fs =>
      rintro heq
      cases heq
      exact hb (by simp [RBPath.elems])

/-- The writes of a rotation before the parent of `x` is written. -/
def State.rotateInner (side : Side) (x y : Option α) (s : State α) : State α :=
  let s' := s.setChild side.other x (s.child side y)
  let s' := if s.child side y ≠ none then s'.setParent (s.child side y) x else s'
  s'.setParent y (s.parent x)

theorem rotate_eq {x y : α} (hxy : x ≠ y) (hy : s.child side.other (some x) = some y)
    (hroot : s.parent s.root = none) (hb : s.child side (some y) ≠ some x) :
    s.rotate side (some x) = .ok ((((s.rotateInner side (some x) (some y)).replace side (some x)
      (some y)).setChild side (some y) (some x)).setParent (some x) (some y)) := by
  unfold State.rotate State.rotateInner
  by_cases hnil : s.child side (some y) = none
  · simp [bugOn, hy, hroot, hnil]
  · simp [bugOn, hy, hroot, hnil, hxy.symm, hb.symm]

namespace State

variable {x y : Option α}

theorem parent_rotateInner : (s.rotateInner side x y).parent j =
    if j = y then s.parent x
    else if s.child side y ≠ none ∧ j = s.child side y then x else s.parent j := by
  unfold rotateInner
  by_cases hnil : s.child side y = none <;> simp [hnil]

theorem child_rotateInner : (s.rotateInner side x y).child side' j =
    if side' = side.other ∧ j = x then s.child side y else s.child side' j := by
  unfold rotateInner
  by_cases hnil : s.child side y = none <;> simp [hnil]

theorem colourOf_rotateInner : (s.rotateInner side x y).colourOf j = s.colourOf j := by
  unfold rotateInner
  by_cases hnil : s.child side y = none <;> simp [hnil]

theorem hooks_none_rotateInner (hx : x ≠ none) (hy : y ≠ none) :
    (s.rotateInner side x y).hooks none = s.hooks none := by
  unfold rotateInner
  simp only
  rw [hooks_none_setParent hy]
  split
  · rename_i hinner
    rw [hooks_none_setParent hinner, hooks_none_setChild hx]
  · exact hooks_none_setChild hx

theorem root_rotateInner : (s.rotateInner side x y).root = s.root := by
  unfold rotateInner
  by_cases hnil : s.child side y = none <;> simp [hnil]

end State

/-- The hooks that a rotation leaves alone. -/
theorem sameLinks_rotateInner {x y : Option α} {d : α} (hx : some d ≠ x) (hy : some d ≠ y)
    (hroot : some d ≠ s.child side y) : SameLinks s (s.rotateInner side x y) (some d) :=
  ⟨by rw [State.parent_rotateInner, if_neg hy, if_neg fun h => hroot h.2],
    fun side => by rw [State.child_rotateInner, if_neg fun h => hx h.2],
    State.colourOf_rotateInner⟩

theorem SameOrder.rotateInner {x y : Option α} : SameOrder s (s.rotateInner side x y) := by
  unfold State.rotateInner
  split
  · exact (SameOrder.setChild.trans .setParent).trans .setParent
  · exact SameOrder.setChild.trans .setParent

/-- What a rotation at `a` writes, with `b` below it: `inner` goes over from `b` to `a`. -/
structure Rotated (side : Side) (a b : α) (inner p : Option α) (s s' : State α) : Prop where
  parent : ∀ j, s'.parent j = if j = some a then some b else if j = some b then p
    else if inner ≠ none ∧ j = inner then some a else s.parent j
  child : ∀ side' j, j ≠ p → s'.child side' j = if side' = side ∧ j = some b then some a
    else if side' = side.other ∧ j = some a then inner else s.child side' j
  colour : ∀ j, s'.colourOf j = s.colourOf j

theorem Rotated.sameLinks {b d : α} {inner : Option α} (h : Rotated side a b inner p s s')
    (ha : d ≠ a) (hb : d ≠ b) (hinner : some d ≠ inner) (hp : some d ≠ p) :
    SameLinks s s' (some d) where
  parent := by
    rw [h.parent, if_neg (by simpa using ha), if_neg (by simpa using hb), if_neg fun h => hinner h.2]
  child side' := by
    rw [h.child _ _ hp, if_neg (by simp [hb]), if_neg (by simp [ha])]
  colour := h.colour _

theorem rotated {b : α} {y p : Option α} (hab : a ≠ b) (hchild : s.child side (some b) = y)
    (hya : y ≠ some a) (hpa : s.parent (some a) = p) :
    Rotated side a b y p s ((((s.rotateInner side (some a) (some b)).replace side (some a)
      (some b)).setChild side (some b) (some a)).setParent (some a) (some b)) := by
  subst hchild hpa
  have hparent : (s.rotateInner side (some a) (some b)).parent (some a) = s.parent (some a) := by
    rw [State.parent_rotateInner, if_neg (by simpa using hab), if_neg fun h => hya h.2.symm]
  refine ⟨fun j => ?_, fun side' j hj => ?_, fun j => ?_⟩
  · rw [State.parent_setParent, State.parent_setChild, State.parent_replace,
      State.parent_rotateInner]
  · rw [State.child_setParent, State.child_setChild,
      State.child_replace_of_ne (by rwa [hparent]), State.child_rotateInner]
  · rw [State.colourOf_setParent, State.colourOf_setChild, State.colourOf_replace,
      State.colourOf_rotateInner]

/-! ## Colours -/

theorem Kept.setColour {c : Colour} : Kept s (s.setColour (some a) c) :=
  ⟨.setColour, State.hooks_setHook_of_ne (Option.some_ne_none a).symm⟩

/-- The node at a place gets another colour. -/
theorem At.setColour (h : At s (.mk side c a x y) fs) (c' : Colour) :
    At (s.setColour (some a) c') (.mk side c' a x y) fs := by
  obtain ⟨hnode, hx, hy⟩ := shape_mk.mp h.shape
  have hdistinct := h.distinct
  rw [(RBTree.perm_mk.append_right _).nodup_iff, List.cons_append, List.nodup_cons] at hdistinct
  have hsame : ∀ d ∈ x.toList ++ y.toList ++ RBPath.elems fs,
      SameLinks s (s.setColour (some a) c') (some d) := by
    rintro d hd
    have hda : d ≠ a := by
      rintro rfl
      exact hdistinct.1 hd
    exact ⟨by simp, by simp, by simp [hda]⟩
  refine ⟨shape_mk.mpr ⟨⟨?_, ?_, ?_, ?_⟩, hx.congr fun d hd => hsame d ?_,
    hy.congr fun d hd => hsame d ?_⟩, ?_, ?_⟩
  · simpa using hnode.parent
  · simpa using hnode.near
  · simpa using hnode.far
  · simp
  · simp [hd]
  · simp [hd]
  · have hhangs := h.hangs
    rw [RBTree.root_mk] at hhangs ⊢
    exact hhangs.congr (fun d hd => hsame d (by simp [hd])) rfl
  · have hperm : (RBTree.mk side c' a x y).toList = (RBTree.mk side c a x y).toList :=
      RBTree.toList_recolour side c' c a x y
    rw [hperm]
    exact h.distinct

/-- The node at a place becomes black; an empty place is black. -/
theorem At.blacken (h : At s t fs) (hnil : s.colourOf none = .black) :
    At (s.setColour t.root .black) t.blacken fs ∧ Kept s (s.setColour t.root .black) := by
  cases t with
  | nil =>
      have hsame : s.setColour none .black = s := by
        have hhook : { s.hooks none with colour := .black } = s.hooks none := by
          rw [← hnil]
          rfl
        unfold State.setColour State.setHook
        rw [hhook, Function.update_eq_self]
      exact ⟨hsame.symm ▸ h, hsame.symm ▸ ⟨.refl s, rfl⟩⟩
  | node c l a r =>
      have hnode : At s (.mk .left c a l r) fs := h
      exact ⟨hnode.setColour .black, .setColour⟩

/-! ## Rotations at a place -/

/-- A rotation at any place; `a` goes down on `side`. -/
theorem At.rotate {ca cb : Colour} {a b : α} {x y z : RBTree α}
    (h : At s (.mk side ca a x (.mk side cb b y z)) fs) : ∃ s', s.rotate side (some a) = .ok s' ∧
      At s' (.mk side cb b (.mk side ca a x y) z) fs ∧ Kept s s' := by
  obtain ⟨hnodea, hx, hrest⟩ := shape_mk.mp h.shape
  obtain ⟨hnodeb, hy, hz⟩ := shape_mk.mp hrest
  have hhangs := h.hangs
  rw [RBTree.root_mk] at hnodea hhangs
  -- all the elements are different ones
  have hperm : ((RBTree.mk side ca a x (.mk side cb b y z)).toList ++ RBPath.elems fs).Perm
      (a :: b :: (y.toList ++ (x.toList ++ (z.toList ++ RBPath.elems fs)))) := by
    refine List.perm_iff_count.mpr fun d => ?_
    simp only [List.count_append, List.count_cons, RBTree.perm_mk.count_eq]
    omega
  have hperm' : ((RBTree.mk side cb b (.mk side ca a x y) z).toList ++ RBPath.elems fs).Perm
      (a :: b :: (y.toList ++ (x.toList ++ (z.toList ++ RBPath.elems fs)))) := by
    refine List.perm_iff_count.mpr fun d => ?_
    simp only [List.count_append, List.count_cons, RBTree.perm_mk.count_eq]
    omega
  have hdistinct := hperm.nodup_iff.mp h.distinct
  obtain ⟨ha, hnodup⟩ := List.nodup_cons.mp hdistinct
  obtain ⟨hb, hnodup⟩ := List.nodup_cons.mp hnodup
  obtain ⟨hnodupy, hnodup, hyother⟩ := List.nodup_append.mp hnodup
  simp only [List.mem_cons, List.mem_append, not_or] at ha hb hyother
  have hya : y.root ≠ some a := fun heq => ha.2.1 (RBTree.mem_of_root heq)
  have hinner : ∀ d, d ∈ x.toList ∨ d ∈ z.toList ∨ d ∈ RBPath.elems fs → some d ≠ y.root :=
    fun d hd heq => hyother d (RBTree.mem_of_root heq.symm) d hd rfl
  have hdy : ∀ d ∈ y.toList, d ≠ a ∧ d ≠ b := by
    rintro d hd
    constructor <;> rintro rfl
    · exact ha.2.1 hd
    · exact hb.1 hd
  have hdfs : ∀ d ∈ RBPath.elems fs, d ≠ a ∧ d ≠ b := by
    rintro d hd
    constructor <;> rintro rfl
    · exact ha.2.2.2.2 hd
    · exact hb.2.2.2 hd
  have hfs : ∀ d ∈ (RBTree.mk side ca a x (.mk side cb b y z)).toList, some d ≠ RBPath.parent fs :=
    fun d hd => ne_parent fun hd' => h.ne_of_mem hd hd' rfl
  simp only [RBTree.mem_mk] at hfs
  have hrotated := rotated ha.1 hnodeb.near hya hnodea.parent
  have hpa : (s.rotateInner side (some a) (some b)).parent (some a) = RBPath.parent fs := by
    rw [State.parent_rotateInner, if_neg (by simpa using ha.1), hnodeb.near,
      if_neg fun h => hya h.2.symm, hnodea.parent]
  refine ⟨_, rotate_eq ha.1 hnodea.far (h.root_parent RBTree.mk_ne_nil) (by rwa [hnodeb.near]),
    ⟨?_, ?_, hperm'.nodup_iff.mpr hdistinct⟩,
    ((SameOrder.rotateInner.trans .replace).trans .setChild).trans .setParent, ?_⟩
  · refine shape_mk.mpr ⟨⟨?_, ?_, ?_, ?_⟩, shape_mk.mpr ⟨⟨?_, ?_, ?_, ?_⟩, ?_, ?_⟩, ?_⟩
    · simp [hrotated.parent, Ne.symm ha.1]
    · simp [hrotated.child _ _ (hfs b (by simp))]
    · simp [hrotated.child _ _ (hfs b (by simp)), Side.other_ne, Ne.symm ha.1, hnodeb.far]
    · rw [hrotated.colour, hnodeb.colour]
    · simp [hrotated.parent]
    · simp [hrotated.child _ _ (hfs a (by simp)), ha.1, hnodea.near, (Side.other_ne side).symm]
    · simp [hrotated.child _ _ (hfs a (by simp)), ha.1]
    · rw [hrotated.colour, hnodea.colour]
    · refine hx.congr fun d hd => hrotated.sameLinks ?_ ?_ (hinner d (.inl hd)) (hfs d (by simp [hd]))
      · rintro rfl
        exact ha.2.2.1 hd
      · rintro rfl
        exact hb.2.1 hd
    · refine hy.reparent hnodupy (fun d hd hroot => hrotated.sameLinks (hdy d hd).1 (hdy d hd).2
        (Ne.symm hroot) (hfs d (by simp [hd]))) fun d hd => ⟨?_, fun side' => ?_, hrotated.colour _⟩
      · obtain ⟨hda, hdb⟩ := hdy d (RBTree.mem_of_root hd)
        simp [hrotated.parent, hd, hda, hdb]
      · obtain ⟨hda, hdb⟩ := hdy d (RBTree.mem_of_root hd)
        simp [hrotated.child _ _ (hfs d (by simp [RBTree.mem_of_root hd])), hda, hdb]
    · refine hz.congr fun d hd => hrotated.sameLinks ?_ ?_ (hinner d (.inr (.inl hd)))
        (hfs d (by simp [hd]))
      · rintro rfl
        exact ha.2.2.2.1 hd
      · rintro rfl
        exact hb.2.2.1 hd
  · rw [RBTree.root_mk]
    refine Hangs.congr (s := (s.rotateInner side (some a) (some b)).replace side (some a) (some b))
      (Hangs.replace (hhangs.congr (fun d hd => sameLinks_rotateInner ?_ ?_ ?_)
        State.root_rotateInner) hpa ?_ side _) (fun d hd => ?_) rfl
    · simpa using (hdfs d hd).1
    · simpa using (hdfs d hd).2
    · rw [hnodeb.near]
      exact hinner d (.inr (.inr hd))
    · exact List.nodup_cons.mpr ⟨ha.2.2.2.2, (List.nodup_append.mp h.distinct).2.1⟩
    · obtain ⟨hda, hdb⟩ := hdfs d hd
      exact ⟨by simp [hda], fun side' => by simp [hdb], by simp⟩
  · have hnone : ∀ d : α, some d ≠ none := fun d => Option.some_ne_none d
    rw [State.hooks_none_setParent (hnone a), State.hooks_none_setChild (hnone b),
      State.hooks_none_replace, State.hooks_none_rotateInner (hnone a) (hnone b)]

end Ilobilix.Lib.Rbtree
