import Mathlib.Data.List.Nodup
import Mathlib.Data.List.Perm.Basic

/-!
# Red-black trees and places in them

A place in a tree is the subtree there and the path from it to the root. `RBTree.mk` builds a node with
the child on a given side first, so that a fact about a step of an algorithm and about its mirror
image are one. `RBTree.Valid` and `RBPath.Valid` are the two halves of what a red-black tree is: a valid
subtree fits into a path that is valid for its number of black nodes, `RBPath.valid_plug`.
-/

universe u

namespace RedBlack

inductive Colour
  | red
  | black
deriving DecidableEq, Repr

inductive Side
  | left
  | right
deriving DecidableEq, Repr

def Side.other : Side → Side
  | left => right
  | right => left

@[simp] theorem Side.other_other (side : Side) : side.other.other = side := by cases side <;> rfl

theorem Side.other_ne (side : Side) : side.other ≠ side := by cases side <;> decide

theorem Side.eq_or_other (side side' : Side) : side = side' ∨ side = side'.other := by
  cases side <;> cases side' <;> decide

variable {α : Type u}

inductive RBTree (α : Type u)
  | nil
  | node (c : Colour) (l : RBTree α) (a : α) (r : RBTree α)
deriving DecidableEq

namespace RBTree

/-- A node, with the child on `side` before the other one. -/
def mk : Side → Colour → α → RBTree α → RBTree α → RBTree α
  | .left, c, a, x, y => node c x a y
  | .right, c, a, x, y => node c y a x

theorem mk_other (side : Side) (c : Colour) (a : α) (x y : RBTree α) :
    mk side.other c a x y = mk side c a y x := by cases side <;> rfl

def root : RBTree α → Option α
  | nil => none
  | node _ _ a _ => some a

/-- A missing node is black. -/
def colour : RBTree α → Colour
  | nil => .black
  | node c _ _ _ => c

def toList : RBTree α → List α
  | nil => []
  | node _ l a r => l.toList ++ a :: r.toList

variable {side : Side} {c : Colour} {a : α} {x y t : RBTree α}

@[simp] theorem root_mk : (mk side c a x y).root = some a := by cases side <;> rfl

@[simp] theorem colour_mk : (mk side c a x y).colour = c := by cases side <;> rfl

/-- Every tree that is not empty is a node seen from either side. -/
theorem exists_mk (side : Side) (h : t ≠ nil) : ∃ c a x y, t = mk side c a x y := by
  cases t with
  | nil => exact absurd rfl h
  | node c l a r =>
      cases side with
      | left => exact ⟨c, a, l, r, rfl⟩
      | right => exact ⟨c, a, r, l, rfl⟩

/-- A node, seen from another side. -/
theorem mk_eq_mk (side side' : Side) (c : Colour) (a : α) (x y : RBTree α) :
    ∃ x' y', mk side c a x y = mk side' c a x' y' := by
  rcases Side.eq_or_other side side' with rfl | rfl
  · exact ⟨x, y, rfl⟩
  · exact ⟨y, x, mk_other side' c a x y⟩

theorem exists_mk_of_red (side : Side) (h : t.colour = .red) :
    ∃ a x y, t = mk side .red a x y := by
  have hnil : t ≠ nil := by
    rintro rfl
    cases h
  obtain ⟨c, a, x, y, rfl⟩ := exists_mk side hnil
  rw [colour_mk] at h
  exact ⟨a, x, y, by rw [h]⟩

theorem root_eq_none : t.root = none ↔ t = nil := by cases t <;> simp [root]

theorem root_eq_some (side : Side) {b : α} (h : t.root = some b) :
    ∃ c x y, t = mk side c b x y := by
  have hnil : t ≠ nil := by
    rintro rfl
    cases h
  obtain ⟨c, a, x, y, rfl⟩ := exists_mk side hnil
  rw [root_mk, Option.some.injEq] at h
  exact ⟨c, x, y, h ▸ rfl⟩

theorem perm_mk : (mk side c a x y).toList.Perm (a :: (x.toList ++ y.toList)) := by
  cases side with
  | left => exact List.perm_middle
  | right => exact List.perm_middle.trans (List.Perm.cons a List.perm_append_comm)

theorem mem_mk {b : α} : b ∈ (mk side c a x y).toList ↔ b = a ∨ b ∈ x.toList ∨ b ∈ y.toList := by
  rw [perm_mk.mem_iff, List.mem_cons, List.mem_append]

theorem mk_ne_nil : mk side c a x y ≠ nil := by cases side <;> exact nofun

theorem mem_of_root (h : t.root = some a) : a ∈ t.toList := by
  obtain ⟨c, x, y, rfl⟩ := root_eq_some .left h
  exact mem_mk.mpr (.inl rfl)

/-- A rotation keeps the order. -/
theorem toList_rotate (side : Side) (c d c' d' : Colour) (a b : α) (x y z : RBTree α) :
    (mk side d b (mk side c a x y) z).toList =
      (mk side c' a x (mk side d' b y z)).toList := by
  cases side <;> simp [mk, toList]

theorem toList_recolour (side : Side) (c c' : Colour) (a : α) (x y : RBTree α) :
    (mk side c a x y).toList = (mk side c' a x y).toList := by cases side <;> rfl

theorem toList_congr {x' y' : RBTree α} (side : Side) (c : Colour) (a : α)
    (hx : x.toList = x'.toList) (hy : y.toList = y'.toList) :
    (mk side c a x y).toList = (mk side c a x' y').toList := by
  cases side <;> simp [mk, toList, hx, hy]

/-- The root becomes black. -/
def blacken : RBTree α → RBTree α
  | nil => nil
  | node _ l a r => node .black l a r

/-- The red-black rules below a node, with `n` black nodes on every way down. -/
def Valid : RBTree α → ℕ → Prop
  | nil, n => n = 0
  | node .red l _ r, n => l.colour = .black ∧ r.colour = .black ∧ l.Valid n ∧ r.Valid n
  | node .black l _ r, n => ∃ m, n = m + 1 ∧ l.Valid m ∧ r.Valid m

theorem valid_red {n : ℕ} : (mk side .red a x y).Valid n ↔
    x.colour = .black ∧ y.colour = .black ∧ x.Valid n ∧ y.Valid n := by
  cases side with
  | left => exact Iff.rfl
  | right =>
      change y.colour = .black ∧ x.colour = .black ∧ y.Valid n ∧ x.Valid n ↔ _
      tauto

theorem valid_black {n : ℕ} :
    (mk side .black a x y).Valid n ↔ ∃ m, n = m + 1 ∧ x.Valid m ∧ y.Valid m := by
  cases side with
  | left => exact Iff.rfl
  | right =>
      change (∃ m, n = m + 1 ∧ y.Valid m ∧ x.Valid m) ↔ _
      simp only [and_comm]

theorem not_valid_nil {n : ℕ} : ¬(nil : RBTree α).Valid (n + 1) := Nat.succ_ne_zero n

/-- The children of a black node. -/
theorem Valid.exists_mk {n : ℕ} (side : Side) (h : t.Valid (n + 1)) (hblack : t.colour = .black) :
    ∃ a x y, t = mk side .black a x y ∧ x.Valid n ∧ y.Valid n := by
  have hnil : t ≠ nil := by
    rintro rfl
    exact not_valid_nil h
  obtain ⟨c, a, x, y, rfl⟩ := RBTree.exists_mk side hnil
  rw [colour_mk] at hblack
  subst hblack
  obtain ⟨m, heq, hx, hy⟩ := valid_black.mp h
  obtain rfl : n = m := Nat.succ.inj heq
  exact ⟨a, x, y, rfl, hx, hy⟩

theorem toList_blacken (t : RBTree α) : t.blacken.toList = t.toList := by cases t <;> rfl

theorem blacken_mk : (mk side c a x y).blacken = mk side .black a x y := by cases side <;> rfl

theorem Valid.blacken {n : ℕ} (h : t.Valid n) : ∃ m, t.blacken.Valid m := by
  cases t with
  | nil => exact ⟨n, h⟩
  | node c l a r =>
      cases c with
      | red => exact ⟨n + 1, n, rfl, h.2.2⟩
      | black => exact ⟨n, h⟩

/-- A red-black tree. -/
def IsRedBlack (t : RBTree α) : Prop := t.colour = .black ∧ ∃ n, t.Valid n

theorem Valid.blacken_of_red {n : ℕ} (h : t.Valid n) (hred : t.colour = .red) :
    t.blacken.Valid (n + 1) := by
  cases t with
  | nil => cases hred
  | node c l a r =>
      cases hred
      exact ⟨n, rfl, h.2.2⟩

@[simp] theorem colour_blacken (t : RBTree α) : t.blacken.colour = .black := by cases t <;> rfl

theorem Valid.isRedBlack_blacken {n : ℕ} (h : t.Valid n) : t.blacken.IsRedBlack :=
  ⟨colour_blacken t, h.blacken⟩

end RBTree

/-- A node above a place: the place is below its child on `side`, and `sibling` is the other child. -/
structure Frame (α : Type u) where
  side : Side
  colour : Colour
  elem : α
  sibling : RBTree α

/-- The nodes from a place to the root. -/
abbrev RBPath (α : Type u) : Type u := List (Frame α)

namespace RBPath

def plug : RBTree α → RBPath α → RBTree α
  | t, [] => t
  | t, f :: fs => plug (.mk f.side f.colour f.elem t f.sibling) fs

theorem plug_append (t : RBTree α) (fs fs' : RBPath α) : plug t (fs ++ fs') = plug (plug t fs) fs' := by
  induction fs generalizing t with
  | nil => rfl
  | cons f fs ih => exact ih _

theorem plug_ne_nil {t : RBTree α} (ht : t ≠ .nil) (fs : RBPath α) : plug t fs ≠ .nil := by
  induction fs generalizing t with
  | nil => exact ht
  | cons f fs ih => exact ih RBTree.mk_ne_nil

/-- The parent of the place. -/
def parent : RBPath α → Option α
  | [] => none
  | f :: _ => some f.elem

/-- The elements on the path and beside it. -/
def elems (fs : RBPath α) : List α := fs.flatMap fun f => f.elem :: f.sibling.toList

/-- The elements that come before the place. -/
def before : RBPath α → List α
  | [] => []
  | f :: fs => before fs ++ match f.side with
      | .left => []
      | .right => f.sibling.toList ++ [f.elem]

def after : RBPath α → List α
  | [] => []
  | f :: fs => (match f.side with
      | .left => f.elem :: f.sibling.toList
      | .right => []) ++ after fs

/-- The place of an element. -/
theorem exists_plug {t : RBTree α} {a : α} (h : a ∈ t.toList) :
    ∃ c l r fs, t = plug (.mk .left c a l r) fs := by
  induction t with
  | nil => cases h
  | node c l b r ihl ihr =>
      rw [RBTree.toList, List.mem_append, List.mem_cons] at h
      rcases h with h | rfl | h
      · obtain ⟨c', l', r', fs, rfl⟩ := ihl h
        exact ⟨c', l', r', fs ++ [⟨.left, c, b, r⟩], by rw [plug_append]; rfl⟩
      · exact ⟨c, l, r, [], rfl⟩
      · obtain ⟨c', l', r', fs, rfl⟩ := ihr h
        exact ⟨c', l', r', fs ++ [⟨.right, c, b, l⟩], by rw [plug_append]; rfl⟩

theorem before_of_left {fs : RBPath α} (h : ∀ f ∈ fs, f.side = .left) : before fs = [] := by
  induction fs with
  | nil => rfl
  | cons f fs ih =>
      rw [before, ih fun g hg => h g (List.mem_cons_of_mem f hg), h f List.mem_cons_self]
      rfl

theorem after_of_right {fs : RBPath α} (h : ∀ f ∈ fs, f.side = .right) : after fs = [] := by
  induction fs with
  | nil => rfl
  | cons f fs ih =>
      rw [after, ih fun g hg => h g (List.mem_cons_of_mem f hg), h f List.mem_cons_self]
      rfl

theorem toList_plug (t : RBTree α) (fs : RBPath α) :
    (plug t fs).toList = before fs ++ (t.toList ++ after fs) := by
  induction fs generalizing t with
  | nil => simp [plug, before, after]
  | cons f fs ih =>
      rw [plug, ih, before, after]
      cases f.side <;> simp [RBTree.mk, RBTree.toList]

theorem toList_plug_congr {t t' : RBTree α} (h : t.toList = t'.toList) (fs : RBPath α) :
    (plug t fs).toList = (plug t' fs).toList := by rw [toList_plug, toList_plug, h]

theorem elems_perm (fs : RBPath α) : (elems fs).Perm (before fs ++ after fs) := by
  induction fs with
  | nil => rfl
  | cons f fs ih =>
      classical
      rw [List.perm_iff_count] at ih ⊢
      intro b
      have hb := ih b
      rw [elems, List.flatMap_cons, ← elems, before, after]
      cases f.side with
      | left =>
          simp only [List.count_append, List.count_cons, List.append_nil] at hb ⊢
          omega
      | right =>
          simp only [List.count_append, List.count_cons, List.nil_append, List.count_nil] at hb ⊢
          omega

theorem perm_plug (t : RBTree α) (fs : RBPath α) : (plug t fs).toList.Perm (t.toList ++ elems fs) := by
  rw [toList_plug]
  refine List.Perm.trans ?_ (List.Perm.append_left _ (elems_perm fs).symm)
  rw [← List.append_assoc, ← List.append_assoc]
  exact List.Perm.append_right _ List.perm_append_comm

theorem length_le_elems (fs : RBPath α) : fs.length ≤ (elems fs).length := by
  induction fs with
  | nil => exact Nat.le_refl 0
  | cons f fs ih =>
      rw [elems, List.flatMap_cons, ← elems]
      simp only [List.length_cons, List.length_append]
      omega

/-- The root of the whole tree is on the path. -/
theorem root_plug (t : RBTree α) (f : Frame α) (fs : RBPath α) :
    ∃ b ∈ elems (f :: fs), (plug t (f :: fs)).root = some b := by
  induction fs generalizing t f with
  | nil => exact ⟨f.elem, by simp [elems], RBTree.root_mk⟩
  | cons g gs ih =>
      obtain ⟨b, hb, hroot⟩ := ih (.mk f.side f.colour f.elem t f.sibling) g
      rw [elems, List.flatMap_cons]
      exact ⟨b, List.mem_append_right _ hb, hroot⟩

/-- A red node may be at the place. -/
def Dark (fs : RBPath α) : Prop := ∃ g gs, fs = g :: gs ∧ g.colour = .black

/-- The rules around a place for a black subtree with `n` black nodes on every way down. -/
def Valid : RBPath α → ℕ → Prop
  | [], _ => True
  | ⟨_, .red, _, sibling⟩ :: fs, n =>
      sibling.colour = .black ∧ sibling.Valid n ∧ Dark fs ∧ Valid fs n
  | ⟨_, .black, _, sibling⟩ :: fs, n => sibling.Valid n ∧ Valid fs (n + 1)

theorem valid_plug {t : RBTree α} {fs : RBPath α} {n : ℕ} (ht : t.Valid n) (hfs : Valid fs n)
    (hdark : t.colour = .red → Dark fs) : (plug t fs).IsRedBlack := by
  induction fs generalizing t n with
  | nil =>
      refine ⟨?_, n, ht⟩
      cases hc : t.colour with
      | black => exact hc
      | red =>
          obtain ⟨g, gs, hnil, -⟩ := hdark hc
          cases hnil
  | cons f fs ih =>
      obtain ⟨side, c, a, sibling⟩ := f
      cases c with
      | red =>
          obtain ⟨hcolour, hsibling, hfsdark, hrest⟩ := hfs
          have ht' : t.colour = .black := by
            cases hc : t.colour with
            | black => rfl
            | red =>
                obtain ⟨g, gs, hcons, hg⟩ := hdark hc
                cases hcons
                cases hg
          exact ih (RBTree.valid_red.mpr ⟨ht', hcolour, ht, hsibling⟩) hrest fun _ => hfsdark
      | black =>
          refine ih (RBTree.valid_black.mpr ⟨n, rfl, ht, hfs.1⟩) hfs.2 fun hred => ?_
          rw [RBTree.colour_mk] at hred
          cases hred

theorem valid_of_plug {t : RBTree α} {fs : RBPath α} (h : (plug t fs).IsRedBlack) :
    ∃ n, t.Valid n ∧ Valid fs n ∧ (t.colour = .red → Dark fs) := by
  induction fs generalizing t with
  | nil =>
      obtain ⟨hblack, n, hn⟩ := h
      refine ⟨n, hn, trivial, fun hred => ?_⟩
      cases hred.symm.trans hblack
  | cons f fs ih =>
      obtain ⟨side, c, a, sibling⟩ := f
      obtain ⟨n, hn, hfs, hdark⟩ := ih h
      cases c with
      | red =>
          obtain ⟨ht, hsibling, htn, hsn⟩ := RBTree.valid_red.mp hn
          refine ⟨n, htn, ⟨hsibling, hsn, hdark RBTree.colour_mk, hfs⟩, fun hred => ?_⟩
          cases hred.symm.trans ht
      | black =>
          obtain ⟨m, rfl, htm, hsm⟩ := RBTree.valid_black.mp hn
          exact ⟨m, htm, ⟨hsm, hfs⟩, fun _ => ⟨_, fs, rfl, rfl⟩⟩

/-- The rules are not about the elements. -/
theorem isRedBlack_elem {side : Side} {c : Colour} {a b : α} {x y : RBTree α} {fs : RBPath α}
    (h : (plug (.mk side c a x y) fs).IsRedBlack) : (plug (.mk side c b x y) fs).IsRedBlack := by
  obtain ⟨n, hvalid, hfs, hdark⟩ := valid_of_plug h
  rw [RBTree.colour_mk] at hdark
  have hvalid' : (RBTree.mk side c b x y).Valid n := by
    cases c with
    | red => exact RBTree.valid_red.mpr (RBTree.valid_red.mp hvalid)
    | black => exact RBTree.valid_black.mpr (RBTree.valid_black.mp hvalid)
  exact valid_plug hvalid' hfs (by rwa [RBTree.colour_mk])

/-- A red node is never at the top. -/
theorem Dark.ne_nil {fs : RBPath α} (h : Dark fs) : fs ≠ [] := by
  rintro rfl
  obtain ⟨g, gs, hnil, -⟩ := h
  cases hnil

end RBPath

end RedBlack
