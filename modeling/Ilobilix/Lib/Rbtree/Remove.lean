import Ilobilix.Lib.Rbtree.RemoveFixup

/-!
# Removal

A node with one child at most is replaced by that child; otherwise the smallest node after it takes
its place. `detach_spec` is the tree then, with the place where a black node may be missing,
`unlink_spec` the list, and `remove_spec` both.
-/

namespace Ilobilix.Lib.Rbtree

open RedBlack

universe u

variable {α : Type u} [DecidableEq α] {s s' : State α} {t v : RBTree α} {fs : RBPath α} {side : Side}
  {c : Colour} {a b : α} {i j : Option α}

/-! ## Transplanting -/

theorem State.hooks_replace_of_ne (h : j ≠ s.parent i) (v : Option α) :
    (s.replace side i v).hooks j = s.hooks j := by
  unfold State.replace
  split
  · rfl
  · split <;> exact State.hooks_setHook_of_ne h

theorem SameOrder.transplant (i j : Option α) : SameOrder s (s.transplant i j) :=
  SameOrder.replace.trans .setParent

theorem State.hooks_transplant_of_ne {k : Option α} (hparent : k ≠ s.parent i) (hj : k ≠ j) :
    (s.transplant i j).hooks k = s.hooks k := by
  exact (State.hooks_setHook_of_ne hj).trans (State.hooks_replace_of_ne hparent j)

theorem State.parent_transplant : (s.transplant i j).parent j = s.parent i := by
  unfold State.transplant
  rw [State.parent_setParent, if_pos rfl, State.parent_replace]

theorem State.child_transplant_of_ne {k : Option α} (h : k ≠ s.parent i) :
    (s.transplant i j).child side k = s.child side k :=
  State.child_setParent.trans (State.child_replace_of_ne h)

theorem State.colourOf_transplant {k : Option α} : (s.transplant i j).colourOf k = s.colourOf k :=
  State.colourOf_setParent.trans State.colourOf_replace

omit [DecidableEq α] in
theorem SameLinks.of_hooks (h : s'.hooks i = s.hooks i) : SameLinks s s' i := by
  refine ⟨congrArg Hook.parent h, fun side => ?_, congrArg Hook.colour h⟩
  unfold State.child
  rw [h]

theorem Hangs.transplant (h : Hangs s (some a) fs) (hparent : s.parent (some a) = RBPath.parent fs)
    (hdistinct : (a :: RBPath.elems fs).Nodup) (hj : ∀ b ∈ RBPath.elems fs, some b ≠ j) :
    Hangs (s.transplant (some a) j) j fs := by
  refine (h.replace hparent hdistinct .left j).congr (fun b hb => .of_hooks ?_) rfl
  exact State.hooks_setHook_of_ne (hj b hb)

/-- A node without a child on `side` is replaced by its other child. -/
theorem At.transplant (h : At s (.mk side c a .nil v) fs) :
    At (s.transplant (some a) v.root) v fs := by
  obtain ⟨hnode, -, hv⟩ := shape_mk.mp h.shape
  have hhangs := h.hangs
  rw [RBTree.root_mk] at hhangs
  have hdistinct := (RBTree.perm_mk.append_right _).nodup_iff.mp h.distinct
  rw [RBTree.toList, List.nil_append, List.cons_append] at hdistinct
  obtain ⟨ha, hnodup⟩ := List.nodup_cons.mp hdistinct
  obtain ⟨hvnodup, hfsnodup, hdisjoint⟩ := List.nodup_append.mp hnodup
  rw [List.mem_append, not_or] at ha
  have hvparent : ∀ b ∈ v.toList, some b ≠ s.parent (some a) := by
    rintro b hb
    rw [hnode.parent]
    exact ne_parent fun hb' => hdisjoint b hb b hb' rfl
  refine ⟨hv.reparent hvnodup (fun b hb hroot => .of_hooks ?_) fun b hroot => ⟨?_, fun side' => ?_, ?_⟩,
    hhangs.transplant hnode.parent (List.nodup_cons.mpr ⟨ha.2, hfsnodup⟩) fun b hb hroot => ?_, hnodup⟩
  · exact State.hooks_transplant_of_ne (hvparent b hb) (Ne.symm hroot)
  · rw [← hroot, State.parent_transplant, hnode.parent]
  · exact State.child_transplant_of_ne (hvparent b (RBTree.mem_of_root hroot))
  · exact State.colourOf_transplant
  · exact hdisjoint b (RBTree.mem_of_root hroot.symm) b hb rfl

/-! ## A node with two children -/

/-- The writes of `_remove` that put `y`, with its right subtree, in the place of `z`. -/
def State.putInPlace (z y : α) (s : State α) : State α :=
  let s := s.transplant (some z) (some y)
  let s := s.setChild .left (some y) (s.child .left (some z))
  let s := s.setParent (s.child .left (some y)) (some y)
  s.setColour (some y) (s.colourOf (some z))

theorem putInPlace_spec {z y : α} {l r : RBTree α} {i : Option α}
    (hz : Node s z (RBPath.parent fs) .left c l.root i) (hl : Shape s (some z) l) (hlnil : l ≠ .nil)
    (hr : Shape s (some y) r) (hry : s.child .right (some y) = r.root) (hhangs : Hangs s (some z) fs)
    (hdistinct : (z :: y :: (l.toList ++ (r.toList ++ RBPath.elems fs))).Nodup) :
    At (s.putInPlace z y) (.mk .left c y l r) fs ∧
      (s.putInPlace z y).hooks none = s.hooks none ∧ SameOrder s (s.putInPlace z y) := by
  obtain ⟨hzmem, hnodup⟩ := List.nodup_cons.mp hdistinct
  obtain ⟨hymem, hnodup'⟩ := List.nodup_cons.mp hnodup
  obtain ⟨hlnodup, hrfs, hldisjoint⟩ := List.nodup_append.mp hnodup'
  obtain ⟨hrnodup, hfsnodup, hrdisjoint⟩ := List.nodup_append.mp hrfs
  simp only [List.mem_cons, List.mem_append, not_or] at hzmem hymem
  have hroot : ∀ b, l.root = some b → b ∈ l.toList := fun b => RBTree.mem_of_root
  have hzp : some z ≠ s.parent (some z) := by
    rw [hz.parent]
    exact ne_parent hzmem.2.2.2
  have hyp : some y ≠ s.parent (some z) := by
    rw [hz.parent]
    exact ne_parent hymem.2.2
  have hzy : some z ≠ some y := fun heq => hzmem.1 (Option.some.inj heq)
  have hlz : (s.transplant (some z) (some y)).hooks (some z) = s.hooks (some z) :=
    State.hooks_transplant_of_ne hzp hzy
  have hleft : (s.transplant (some z) (some y)).child .left (some z) = l.root :=
    (SameLinks.of_hooks hlz).child .left |>.trans hz.near
  have hcolour : (s.transplant (some z) (some y)).colourOf (some z) = c :=
    (SameLinks.of_hooks hlz).colour.trans hz.colour
  have hyl : l.root ≠ some y := fun heq => hymem.1 (hroot y heq)
  have heq : s.putInPlace z y = ((((s.transplant (some z) (some y)).setChild .left (some y)
      l.root).setParent l.root (some y)).setColour (some y) c) := by
    unfold State.putInPlace
    simp [hleft, hcolour]
  -- the hooks of the other elements
  have hsame : ∀ b, some b ≠ s.parent (some z) → b ≠ y → l.root ≠ some b →
      SameLinks s (s.putInPlace z y) (some b) := by
    rintro b hbp hby hbl
    have hby' : some b ≠ some y := fun heq => hby (Option.some.inj heq)
    rw [heq]
    refine (SameLinks.of_hooks (State.hooks_transplant_of_ne hbp hby')).trans ⟨?_, fun side => ?_, ?_⟩
    · simp [hbl.symm]
    · simp [hby]
    · simp [hby]
  have hpr : ∀ b, b ∉ RBPath.elems fs → some b ≠ s.parent (some z) := by
    rintro b hb
    rw [hz.parent]
    exact ne_parent hb
  refine ⟨⟨shape_mk.mpr ⟨⟨?_, ?_, ?_, ?_⟩, ?_, ?_⟩, ?_, ?_⟩, ?_, ?_⟩
  · rw [heq]
    simp [hyl.symm, State.parent_transplant, hz.parent]
  · rw [heq]
    simp
  · rw [heq]
    simpa [Side.other] using (State.child_transplant_of_ne hyp).trans hry
  · rw [heq]
    simp
  · refine hl.reparent hlnodup (fun b hb hbl => hsame b (hpr b ?_) ?_ hbl) fun b hbl => ?_
    · exact fun hb' => hldisjoint b hb b (List.mem_append_right _ hb') rfl
    · rintro rfl
      exact hymem.1 hb
    · have hb := hroot b hbl
      have hby : b ≠ y := fun h => hymem.1 (h ▸ hb)
      have hbp : some b ≠ s.parent (some z) :=
        hpr b fun hb' => hldisjoint b hb b (List.mem_append_right _ hb') rfl
      have hlinks := SameLinks.of_hooks (State.hooks_transplant_of_ne hbp
        (fun h => hby (Option.some.inj h)) : (s.transplant (some z) (some y)).hooks (some b) = _)
      rw [heq]
      refine ⟨?_, fun side => ?_, ?_⟩
      · simp [hbl]
      · simpa [hby] using hlinks.child side
      · simpa [hby] using hlinks.colour
  · refine hr.congr fun b hb => hsame b (hpr b fun hb' => hrdisjoint b hb b hb' rfl) ?_ fun hbl => ?_
    · rintro rfl
      exact hymem.2.1 hb
    · exact hldisjoint b (hroot b hbl) b (List.mem_append_left _ hb) rfl
  · have hhangs₁ := hhangs.transplant hz.parent (List.nodup_cons.mpr ⟨hzmem.2.2.2, hfsnodup⟩)
      (j := some y) fun b hb h => hymem.2.2 (Option.some.inj h ▸ hb)
    rw [RBTree.root_mk]
    refine hhangs₁.congr (fun b hb => ?_) (by rw [heq]; rfl)
    have hby : b ≠ y := by
      rintro rfl
      exact hymem.2.2 hb
    have hbl : some b ≠ l.root := fun h =>
      hldisjoint b (hroot b h.symm) b (List.mem_append_right _ hb) rfl
    rw [heq]
    exact ⟨by simp [hbl], fun side => by simp [hby], by simp [hby]⟩
  · have hperm : ((RBTree.mk .left c y l r).toList ++ RBPath.elems fs).Perm
        (y :: (l.toList ++ (r.toList ++ RBPath.elems fs))) := by
      rw [← List.append_assoc]
      exact RBTree.perm_mk.append_right _
    exact hperm.nodup_iff.mpr hnodup
  · have hlroot : l.root ≠ none := fun h => hlnil (RBTree.root_eq_none.mp h)
    have hnone : ∀ b : α, some b ≠ none := Option.some_ne_none
    rw [heq]
    refine (State.hooks_setHook_of_ne (hnone y).symm).trans ?_
    rw [State.hooks_none_setParent hlroot, State.hooks_none_setChild (hnone y)]
    exact (State.hooks_none_setParent (hnone y)).trans State.hooks_none_replace
  · rw [heq]
    exact (((SameOrder.transplant _ _).trans .setChild).trans .setParent).trans .setColour

/-- `putInPlace` when `r` has been hung below `y`. -/
theorem At.putInPlace {s₁ : State α} {z y : α} {l r w : RBTree α} {q : Option α}
    (h : At s (.mk .left c z l w) fs) (hr : Shape s q r) (hlnil : l ≠ .nil)
    (hdistinct : (z :: y :: (l.toList ++ (r.toList ++ RBPath.elems fs))).Nodup)
    (hsame : ∀ b, b ≠ y → r.root ≠ some b → SameLinks s s₁ (some b))
    (hrroot : ∀ b, r.root = some b → s₁.parent (some b) = some y ∧
      (∀ side, s₁.child side (some b) = s.child side (some b)) ∧
      s₁.colourOf (some b) = s.colourOf (some b))
    (hry : s₁.child .right (some y) = r.root) (hroot : s₁.root = s.root) :
    At (s₁.putInPlace z y) (.mk .left c y l r) fs ∧
      (s₁.putInPlace z y).hooks none = s₁.hooks none ∧ SameOrder s₁ (s₁.putInPlace z y) := by
  obtain ⟨hzmem, hnodup⟩ := List.nodup_cons.mp hdistinct
  obtain ⟨hymem, hnodup'⟩ := List.nodup_cons.mp hnodup
  obtain ⟨-, hrfs, hldisjoint⟩ := List.nodup_append.mp hnodup'
  obtain ⟨hrnodup, -, hrdisjoint⟩ := List.nodup_append.mp hrfs
  simp only [List.mem_cons, List.mem_append, not_or] at hzmem hymem
  have hkeep : ∀ b, b = z ∨ b ∈ l.toList ∨ b ∈ RBPath.elems fs → SameLinks s s₁ (some b) := by
    refine fun b hb => hsame b ?_ fun hbr => ?_
    · rintro rfl
      exact hb.elim (Ne.symm hzmem.1) (not_or.mpr ⟨hymem.1, hymem.2.2⟩)
    · have hmem : b ∈ r.toList := RBTree.mem_of_root hbr
      rcases hb with rfl | hb | hb
      · exact hzmem.2.2.1 hmem
      · exact hldisjoint b hb b (List.mem_append_left _ hmem) rfl
      · exact hrdisjoint b hmem b hb rfl
  obtain ⟨hnode, hl, -⟩ := shape_mk.mp h.shape
  have hhangs := h.hangs
  rw [RBTree.root_mk] at hhangs
  refine putInPlace_spec (hnode.congr (hkeep z (.inl rfl)))
    (hl.congr fun b hb => hkeep b (.inr (.inl hb))) hlnil
    (hr.reparent hrnodup (fun b hb hbr => hsame b ?_ hbr) hrroot) hry
    (hhangs.congr (fun b hb => hkeep b (.inr (.inr hb))) hroot) hdistinct
  rintro rfl
  exact hymem.2.1 hb

omit [DecidableEq α] in
/-- The loop of `minimum` and of `maximum` ends at a node without a child on `side`. -/
theorem extreme_spec (side : Side) {fuel : ℕ} (h : At s t fs) (ht : t ≠ .nil)
    (hfuel : t.toList.length ≤ fuel) :
    ∃ c a v gs, t = RBPath.plug (.mk side c a .nil v) gs ∧ (∀ g ∈ gs, g.side = side) ∧
      State.extreme side s fuel t.root = .ok (some a) := by
  induction fuel generalizing t fs with
  | zero =>
      obtain ⟨c, a, x, y, rfl⟩ := RBTree.exists_mk side ht
      rw [RBTree.perm_mk.length_eq] at hfuel
      cases hfuel
  | succ fuel ih =>
      obtain ⟨c, a, x, y, rfl⟩ := RBTree.exists_mk side ht
      rw [RBTree.perm_mk.length_eq, List.length_cons, List.length_append] at hfuel
      have hnear : s.child side (some a) = x.root := h.node.near
      rw [RBTree.root_mk]
      unfold State.extreme
      rw [hnear]
      cases x with
      | nil => exact ⟨c, a, y, [], rfl, by simp, if_neg (by simp [RBTree.root])⟩
      | node cx l b r =>
          obtain ⟨c', a', v, gs, heq, hgs, hextreme⟩ := ih (at_mk.mp h) (by simp) (by omega)
          refine ⟨c', a', v, gs ++ [⟨side, c, a, y⟩], ?_, ?_, ?_⟩
          · rw [RBPath.plug_append, ← heq]
            rfl
          · intro g hg
            rcases List.mem_append.mp hg with hg | hg
            · exact hgs g hg
            · rw [List.mem_singleton.mp hg]
          · rw [if_pos (by simp [RBTree.root]), hextreme]

/-! ## Taking a node out -/

omit [DecidableEq α] in
/-- The child of a node without a child on `side` comes in its place. -/
theorem valid_without (h : (RBPath.plug (.mk side c a .nil v) fs).IsRedBlack) :
    (c = .red ∧ (RBPath.plug v fs).IsRedBlack) ∨
      (c = .black ∧ ∃ n, Lacking v n ∧ RBPath.Valid fs (n + 1)) := by
  obtain ⟨n, hvalid, hfs, -⟩ := RBPath.valid_of_plug h
  cases c with
  | red =>
      obtain ⟨-, hblack, -, hv⟩ := RBTree.valid_red.mp hvalid
      exact .inl ⟨rfl, RBPath.valid_plug hv hfs fun hred => absurd (hred.symm.trans hblack) (by decide)⟩
  | black =>
      obtain ⟨m, rfl, -, hv⟩ := RBTree.valid_black.mp hvalid
      refine .inr ⟨rfl, m, ?_, hfs⟩
      cases hc : v.colour with
      | red => exact .inr ⟨hc, hv.blacken_of_red hc⟩
      | black => exact .inl ⟨hc, hv⟩

/-- What `detach` leaves at `x`. -/
structure Detached (s : State α) (t : RBTree α) (s' : State α) (x : RBTree α) (fs : RBPath α)
    (yoc : Colour) : Prop where
  place : At s' x fs
  parent : s'.parent x.root = RBPath.parent fs
  order : SameOrder s s'
  colour : s'.colourOf none = s.colourOf none
  valid : t.IsRedBlack → (yoc = .red ∧ (RBPath.plug x fs).IsRedBlack) ∨
    (yoc = .black ∧ ∃ n, Lacking x n ∧ RBPath.Valid fs (n + 1))

/-- A node with one child at most. -/
theorem transplant_spec (h : At s (.mk side c a .nil v) fs) :
    Detached s (RBPath.plug (.mk side c a .nil v) fs) (s.transplant (some a) v.root) v fs c where
  place := h.transplant
  parent := State.parent_transplant.trans h.node.parent
  order := SameOrder.transplant _ _
  colour := State.colourOf_transplant
  valid := valid_without

/-- The writes of `_remove` by which the right child of `z` comes below `y`. -/
def State.takeOut (z y : α) (s : State α) : State α :=
  if some y ≠ s.child .right (some z) then
    let s := s.transplant (some y) (s.child .right (some y))
    let s := s.setChild .right (some y) (s.child .right (some z))
    s.setParent (s.child .right (some y)) (some y)
  else s.setParent (s.child .right (some y)) (some y)

/-- `y` is the right child of `z`. -/
theorem takeOut_child {z y : α} {l yr : RBTree α} {cy : Colour}
    (h : At s (.mk .left c z l (.mk .left cy y .nil yr)) fs) (hl : l ≠ .nil)
    (hdistinct : (z :: y :: (l.toList ++ (yr.toList ++ RBPath.elems fs))).Nodup) :
    At ((s.takeOut z y).putInPlace z y) yr (⟨.right, c, y, l⟩ :: fs) ∧
      ((s.takeOut z y).putInPlace z y).parent yr.root = some y ∧
      SameOrder s ((s.takeOut z y).putInPlace z y) ∧
      ((s.takeOut z y).putInPlace z y).colourOf none = s.colourOf none := by
  obtain ⟨hnode, -, hrest⟩ := shape_mk.mp h.shape
  obtain ⟨hnodey, -, hyr⟩ := shape_mk.mp hrest
  have hfar : s.child .right (some z) = some y := hnode.far
  have hfary : s.child .right (some y) = yr.root := hnodey.far
  have htake : s.takeOut z y = s.setParent yr.root (some y) := by
    unfold State.takeOut
    rw [hfar, if_neg (fun hne => hne rfl), hfary]
  have hparent : (s.setParent yr.root (some y)).parent yr.root = some y := by simp
  have hchild : (s.setParent yr.root (some y)).child .right (some y) = yr.root := by simpa using hfary
  rw [htake]
  obtain ⟨hat, hnone, horder⟩ := h.putInPlace hyr hl hdistinct
    (fun b _ hb => ⟨by simp [hb.symm], by simp, by simp⟩)
    (fun b hb => ⟨by simp [hb], by simp, by simp⟩) hchild rfl
  have hplace : At _ yr (⟨.right, c, y, l⟩ :: fs) := at_mk.mp hat
  refine ⟨hplace, hplace.parent_kept ⟨horder, hnone⟩ hparent, SameOrder.setParent.trans horder, ?_⟩
  exact (congrArg Hook.colour hnone).trans State.colourOf_setParent

/-- `y` is further down. -/
theorem takeOut_deep {z y : α} {l yr : RBTree α} {cy : Colour} {g : Frame α} {gs : RBPath α}
    (h : At s (.mk .left cy y .nil yr) (g :: gs ++ ⟨.right, c, z, l⟩ :: fs)) (hl : l ≠ .nil)
    (hdistinct : (z :: y :: (l.toList ++
      ((RBPath.plug yr (g :: gs)).toList ++ RBPath.elems fs))).Nodup) :
    At ((s.takeOut z y).putInPlace z y) yr (g :: gs ++ ⟨.right, c, y, l⟩ :: fs) ∧
      ((s.takeOut z y).putInPlace z y).parent yr.root = some g.elem ∧
      SameOrder s ((s.takeOut z y).putInPlace z y) ∧
      ((s.takeOut z y).putInPlace z y).colourOf none = s.colourOf none := by
  have hfary : s.child .right (some y) = yr.root := h.node.far
  obtain ⟨hzmem, hnodup⟩ := List.nodup_cons.mp hdistinct
  obtain ⟨hymem, -⟩ := List.nodup_cons.mp hnodup
  simp only [List.mem_cons, List.mem_append, not_or] at hzmem hymem
  have hne : some y ≠ s.child .right (some z) := by
    have hfar : s.child .right (some z) = (RBPath.plug (.mk .left cy y .nil yr) (g :: gs)).root :=
      (at_plug.mpr h).frame.near
    obtain ⟨b, hb, hroot⟩ := RBPath.root_plug (.mk .left cy y .nil yr) g gs
    rw [hfar, hroot]
    rintro heq
    obtain rfl : y = b := Option.some.inj heq
    exact hymem.2.1 ((RBPath.perm_plug yr (g :: gs)).mem_iff.mpr (List.mem_append_right _ hb))
  have hat₁ := h.transplant
  have hat₂ := at_mk.mpr (at_plug.mpr hat₁)
  have hfar : (s.transplant (some y) yr.root).child .right (some z) = (RBPath.plug yr (g :: gs)).root :=
    hat₂.node.near
  have hrroot : (RBPath.plug yr (g :: gs)).root ≠ none := by
    obtain ⟨b, -, hroot⟩ := RBPath.root_plug yr g gs
    rw [hroot]
    exact Option.some_ne_none b
  have htake : s.takeOut z y = (((s.transplant (some y) yr.root).setChild .right (some y)
      (RBPath.plug yr (g :: gs)).root).setParent (RBPath.plug yr (g :: gs)).root (some y)) := by
    unfold State.takeOut
    rw [if_pos hne]
    simp [hfary, hfar]
  have hyroot : ∀ b, (RBPath.plug yr (g :: gs)).root = some b → b ≠ y := by
    rintro b hroot rfl
    exact hymem.2.1 (RBTree.mem_of_root hroot)
  have hchild : (((s.transplant (some y) yr.root).setChild .right (some y)
      (RBPath.plug yr (g :: gs)).root).setParent (RBPath.plug yr (g :: gs)).root (some y)).child .right
        (some y) = (RBPath.plug yr (g :: gs)).root := by simp
  rw [htake]
  obtain ⟨hat, hnone, horder⟩ := hat₂.putInPlace hat₂.shape.2.2 hl hdistinct
    (fun b hby hb => ⟨by simp [hb.symm], by simp [hby], by simp⟩)
    (fun b hb => ⟨by simp [hb], by simp [hyroot b hb], by simp⟩) hchild rfl
  have hplace : At _ (RBPath.plug yr (g :: gs)) (⟨.right, c, y, l⟩ :: fs) := at_mk.mp hat
  have hplace' := at_plug.mp hplace
  refine ⟨hplace', ?_, (((SameOrder.transplant _ _).trans .setChild).trans .setParent).trans horder, ?_⟩
  · cases yr with
    | nil =>
        refine (congrArg Hook.parent hnone).trans ?_
        have hparent : (s.transplant (some y) RBTree.nil.root).parent none = some g.elem :=
          State.parent_transplant.trans h.node.parent
        change (State.setParent _ _ _).parent none = _
        simp [hrroot.symm, hparent]
    | node cr lr a rr => exact hplace'.parent_root nofun
  · refine (congrArg Hook.colour hnone).trans ?_
    change (State.setParent _ _ _).colourOf none = _
    simp [State.colourOf_transplant]

/-- A node with two children. -/
theorem detach_both {z : α} {l r : RBTree α} {fuel : ℕ} (h : At s (.mk .left c z l r) fs)
    (hl : l ≠ .nil) (hr : r ≠ .nil) (hfuel : r.toList.length ≤ fuel) :
    ∃ s' x fs' yoc, s.detach fuel (some z) = .ok (s', x.root, yoc) ∧
      Detached s (RBPath.plug (.mk .left c z l r) fs) s' x fs' yoc ∧
      (RBPath.plug x fs').toList = RBPath.before fs ++ (l.toList ++ (r.toList ++ RBPath.after fs)) := by
  have hr' : At s r (⟨.right, c, z, l⟩ :: fs) := at_mk.mp h
  obtain ⟨cy, y, yr, gs, rfl, hgs, hextreme⟩ := extreme_spec .left hr' hr hfuel
  have hy := at_plug.mp hr'
  have hlist : (RBPath.plug (.mk .left cy y .nil yr) gs).toList = y :: (RBPath.plug yr gs).toList := by
    rw [RBPath.toList_plug, RBPath.toList_plug, RBPath.before_of_left hgs]
    rfl
  have hdistinct : (z :: y :: (l.toList ++ ((RBPath.plug yr gs).toList ++ RBPath.elems fs))).Nodup := by
    refine (List.Perm.nodup_iff (List.perm_iff_count.mpr fun b => ?_)).mp h.distinct
    simp only [List.count_append, List.count_cons, RBTree.perm_mk.count_eq, hlist]
    omega
  have hnear : s.child .left (some z) = l.root := h.node.near
  have hfar : s.child .right (some z) = (RBPath.plug (.mk .left cy y .nil yr) gs).root := h.node.far
  have hlroot : l.root ≠ none := fun heq => hl (RBTree.root_eq_none.mp heq)
  have hrroot : (RBPath.plug (.mk .left cy y .nil yr) gs).root ≠ none := fun heq =>
    hr (RBTree.root_eq_none.mp heq)
  have hyr : s.child .right (some y) = yr.root := hy.node.far
  have hcy : s.colourOf (some y) = cy := hy.node.colour
  have hdetach : s.detach fuel (some z) =
      .ok ((s.takeOut z y).putInPlace z y, yr.root, cy) := by
    unfold State.detach State.outermost
    simp only [hnear, hfar, if_neg hlroot, if_neg hrroot, bugOn, Except.ok_bind, hextreme, hyr, hcy,
      State.takeOut]
    rfl
  -- the tree with `y` at both places has the colours of the old one
  have hvalid :
      (RBPath.plug (.mk .left c z l (RBPath.plug (.mk .left cy y .nil yr) gs)) fs).IsRedBlack →
      (cy = .red ∧ (RBPath.plug yr (gs ++ ⟨.right, c, y, l⟩ :: fs)).IsRedBlack) ∨
        (cy = .black ∧ ∃ n, Lacking yr n ∧
          RBPath.Valid (gs ++ ⟨.right, c, y, l⟩ :: fs) (n + 1)) := by
    rintro hwhole
    have hboth : (RBPath.plug (.mk .left cy y .nil yr) (gs ++ ⟨.right, c, y, l⟩ :: fs)).IsRedBlack := by
      rw [RBPath.plug_append]
      exact RBPath.isRedBlack_elem hwhole
    exact valid_without hboth
  have hfinal : (RBPath.plug yr (gs ++ ⟨.right, c, y, l⟩ :: fs)).toList =
      RBPath.before fs ++ (l.toList ++ ((RBPath.plug (.mk .left cy y .nil yr) gs).toList ++
        RBPath.after fs)) := by
    rw [RBPath.plug_append, RBPath.toList_plug, hlist]
    simp [RBPath.before, RBPath.after]
  refine ⟨_, yr, gs ++ ⟨.right, c, y, l⟩ :: fs, cy, hdetach, ?_, hfinal⟩
  cases gs with
  | nil =>
      obtain ⟨hplace, hparent, horder, hcolour⟩ := takeOut_child h hl hdistinct
      exact ⟨hplace, hparent, horder, hcolour, hvalid⟩
  | cons g gs =>
      obtain ⟨hplace, hparent, horder, hcolour⟩ := takeOut_deep hy hl hdistinct
      exact ⟨hplace, hparent, horder, hcolour, hvalid⟩

theorem detach_spec {z : α} {l r : RBTree α} {fuel : ℕ} (h : At s (.mk .left c z l r) fs)
    (hfuel : r.toList.length ≤ fuel) :
    ∃ s' x fs' yoc, s.detach fuel (some z) = .ok (s', x.root, yoc) ∧
      Detached s (RBPath.plug (.mk .left c z l r) fs) s' x fs' yoc ∧
      (RBPath.plug x fs').toList = RBPath.before fs ++ (l.toList ++ (r.toList ++ RBPath.after fs)) := by
  have hnear : s.child .left (some z) = l.root := h.node.near
  have hfar : s.child .right (some z) = r.root := h.node.far
  have hcolour : s.colourOf (some z) = c := h.node.colour
  by_cases hl : l = .nil
  · subst hl
    refine ⟨_, r, fs, c, ?_, transplant_spec h, RBPath.toList_plug r fs⟩
    have hnone : s.child .left (some z) = none := hnear
    unfold State.detach
    rw [if_pos hnone, hfar, hcolour]
    rfl
  by_cases hr : r = .nil
  · subst hr
    have hright : At s (.mk .right c z .nil l) fs := h
    refine ⟨_, l, fs, c, ?_, transplant_spec hright, RBPath.toList_plug l fs⟩
    have hnone : s.child .right (some z) = none := hfar
    have hlroot : l.root ≠ none := fun heq => hl (RBTree.root_eq_none.mp heq)
    unfold State.detach
    rw [hnear, if_neg hlroot, if_pos hnone, hcolour]
    rfl
  · exact detach_both h hl hr hfuel

/-! ## Unlinking -/

/-- The writes of `unlink`. -/
def State.bypass (z : α) (pred succ : Option α) (s : State α) : State α :=
  let s := if pred ≠ none then s.setNext .right pred succ else s.setHead succ
  let s := if succ ≠ none then s.setNext .left succ pred else s
  let s := if s.head = some z then s.setHead (if succ ≠ none then succ else pred) else s
  (s.setNext .left (some z) none).setNext .right (some z) none

section Bypass

variable {z : α} {pred succ : Option α}

theorem next_bypass : (s.bypass z pred succ).next side i =
    if i = some z then none
    else if side = .right ∧ pred ≠ none ∧ i = pred then succ
    else if side = .left ∧ succ ≠ none ∧ i = succ then pred else s.next side i := by
  unfold State.bypass
  dsimp only
  split_ifs <;> cases side <;> simp_all

theorem sameLinks_bypass : SameLinks s (s.bypass z pred succ) i := by
  unfold State.bypass
  dsimp only
  constructor
  · split_ifs <;> simp
  · intro side
    split_ifs <;> simp
  · split_ifs <;> simp

theorem root_bypass : (s.bypass z pred succ).root = s.root := by
  unfold State.bypass
  dsimp only
  split_ifs <;> rfl

theorem size_bypass : (s.bypass z pred succ).size = s.size := by
  unfold State.bypass
  dsimp only
  split_ifs <;> rfl

theorem head_bypass_of_none (hsucc : succ ≠ some z) : (s.bypass z none succ).head = succ := by
  unfold State.bypass
  dsimp only
  split_ifs <;> simp_all

theorem head_bypass_of_ne (hpred : pred ≠ none) (hhead : s.head ≠ some z) :
    (s.bypass z pred succ).head = s.head := by
  unfold State.bypass
  dsimp only
  split_ifs <;> simp_all

end Bypass

theorem unlink_spec {z : α} {l₁ l₂ : List α} (h : Threaded s (l₁ ++ z :: l₂))
    (hnodup : (l₁ ++ z :: l₂).Nodup) : ∃ s', s.unlink (some z) = .ok s' ∧ Threaded s' (l₁ ++ l₂) ∧
      (∀ i, SameLinks s s' i) ∧ s'.root = s.root ∧ s'.size = s.size ∧
      (s.head = (l₁ ++ z :: l₂).head? → s'.head = (l₁ ++ l₂).head?) := by
  have hpred : s.next .left (some z) = l₁.getLast? := Linked.prev_eq h
  have hsucc : s.next .right (some z) = l₂.head? := Linked.next_eq h
  have hback : l₁.getLast? ≠ none → s.next .right l₁.getLast? = some z := by
    rcases List.eq_nil_or_concat l₁ with rfl | ⟨l, p, rfl⟩
    · exact fun hne => absurd rfl hne
    · rintro -
      have hp : Threaded s (l ++ p :: z :: l₂) := by simpa using h
      rw [List.concat_eq_append, List.getLast?_concat]
      exact Linked.next_eq hp
  have hforth : l₂.head? ≠ none → s.next .left l₂.head? = some z := by
    cases l₂ with
    | nil => exact fun hne => absurd rfl hne
    | cons q l =>
        rintro -
        have hq : Threaded s ((l₁ ++ [z]) ++ q :: l) := by simpa using h
        exact (Linked.prev_eq hq).trans List.getLast?_concat
  have hunlink : s.unlink (some z) = .ok (s.bypass z l₁.getLast? l₂.head?) := by
    unfold State.unlink
    simp only [hpred, hsucc, bugOn]
    rw [if_neg fun h => h.2 (hback h.1), Except.ok_bind, if_neg fun h => h.2 (hforth h.1),
      Except.ok_bind]
    rfl
  have hz : z ∉ l₁ ++ l₂ := (List.nodup_cons.mp (List.perm_middle.nodup_iff.mp hnodup)).1
  have hne : ∀ b ∈ l₁ ++ l₂, b ≠ z := fun b hb heq => hz (heq ▸ hb)
  refine ⟨_, hunlink, ?_, fun _ => sameLinks_bypass, root_bypass, size_bypass, fun hhead => ?_⟩
  · refine Linked.remove h hnodup (fun b hb hbl => ?_) (fun b hbl => ?_) (fun b hb hbh => ?_)
      fun b hbh => ?_
    · simp [next_bypass, hne b hb, Ne.symm hbl]
    · have hb : b ≠ z := hne b (List.mem_append_left _ (List.mem_of_getLast? hbl))
      simp [next_bypass, hb, hbl]
    · simp [next_bypass, hne b hb, Ne.symm hbh]
    · have hb : b ≠ z := hne b (List.mem_append_right _ (List.mem_of_head? hbh))
      simp [next_bypass, hb, hbh]
  · cases l₁ with
    | nil =>
        refine head_bypass_of_none fun hl => ?_
        exact hz (List.mem_of_head? hl)
    | cons p l =>
        have hp : p ≠ z := hne p (by simp)
        refine (head_bypass_of_ne (by simp) ?_).trans hhead
        rw [hhead]
        simpa using hp

/-! ## Removal -/

/-- The colours after a removal. -/
theorem Detached.fixup {s₀ : State α} {x : RBTree α} {yoc : Colour} {fuel : ℕ}
    (h : Detached s₀ t s x fs yoc) (ht : t.IsRedBlack) (hnil : s.colourOf none = .black)
    (hfuel : fs.length < fuel) : ∃ s' t',
      (if yoc = .black then State.removeFixup fuel x.root s else pure s) = .ok s' ∧
        Fixed s (RBPath.plug x fs) s' t' := by
  rcases h.valid ht with ⟨rfl, hvalid⟩ | ⟨rfl, n, hlacking, habove⟩
  · exact ⟨s, _, rfl, at_whole.mpr h.place, hvalid, rfl, .refl s, rfl⟩
  · rw [if_pos rfl]
    exact removeFixup_spec hnil ⟨h.place, h.parent, hlacking, habove⟩ (Nat.zero_lt_of_lt hfuel)
      fun _ => hfuel

/-- What the check at the end of `_remove` looks for. -/
def HeadOff (s : State α) : Prop := s.head = none ∨ s.next .left s.head ≠ none

instance (s : State α) : Decidable (HeadOff s) := inferInstanceAs (Decidable (_ ∨ _))

theorem removeUnchecked_eq {s₁ s₂ s₃ : State α} {x : Option α} {yoc : Colour} {fuel : ℕ}
    (hunlink : s.unlink (some a) = .ok s₁) (hdetach : s₁.detach fuel (some a) = .ok (s₂, x, yoc))
    (hfixup : (if yoc = .black then State.removeFixup fuel x s₂ else pure s₂) = .ok s₃) :
    s.removeUnchecked fuel (some a) = .ok s₃ := by
  unfold State.removeUnchecked
  simp only [bugOn, reduceCtorEq, if_false, Except.ok_bind, hunlink, hdetach]
  exact hfixup

theorem remove_spec {fuel : ℕ} (h : Tidy s t) (ha : a ∈ t.toList) (hfuel : t.toList.length < fuel) :
    ∃ s' t', Tidy s' t' ∧ t'.toList = t.toList.erase a ∧ s'.colourOf none = .black ∧
      (s.head = t.toList.head? → s'.head = t'.toList.head?) ∧
      (∃ s₃, (s.setHook none .new).removeUnchecked fuel (some a) = .ok s₃ ∧ s₃.size ≠ 0 ∧
        s₃.colourOf none = .black) ∧
      s.remove fuel a = if t' ≠ .nil ∧ HeadOff s' then .error .bug else .ok s' := by
  obtain ⟨c, l, r, fs, rfl⟩ := RBPath.exists_plug ha
  have hlist : (RBPath.plug (.mk .left c a l r) fs).toList =
      (RBPath.before fs ++ l.toList) ++ a :: (r.toList ++ RBPath.after fs) := by
    rw [RBPath.toList_plug]
    simp [RBTree.mk, RBTree.toList]
  have hnodup := h.nodup
  rw [hlist] at hnodup
  have herase : (RBPath.plug (.mk .left c a l r) fs).toList.erase a =
      (RBPath.before fs ++ l.toList) ++ (r.toList ++ RBPath.after fs) := by
    have hmem : a ∉ RBPath.before fs ++ l.toList := fun hmem =>
      (List.nodup_append.mp hnodup).2.2 a hmem a List.mem_cons_self rfl
    rw [hlist, List.erase_append_right _ hmem, List.erase_cons_head]
  have hlength := congrArg List.length hlist
  simp only [List.length_append, List.length_cons] at hlength
  have hreset : Tidy (s.setHook none .new) (RBPath.plug (.mk .left c a l r) fs) :=
    h.congr (fun b _ => State.hooks_setHook_of_ne (Option.some_ne_none b)) rfl rfl rfl
  obtain ⟨s₁, hunlink, hthreaded, hlinks, hroot₁, hsize₁, hhead₁⟩ :=
    unlink_spec (hlist ▸ hreset.threaded) hnodup
  have hat₁ : At s₁ (.mk .left c a l r) fs :=
    (at_whole.mp hreset.place).congr (fun b _ => hlinks (some b)) hroot₁
  obtain ⟨s₂, x, fs', yoc, hdetach, hdetached, hlist₂⟩ :=
    detach_spec hat₁ (by omega : r.toList.length ≤ fuel)
  have hnil : s₂.colourOf none = .black := by
    rw [hdetached.colour, (hlinks none).colour]
    exact congrArg Hook.colour State.hooks_setHook_self
  have hlength₂ := congrArg List.length hlist₂
  simp only [List.length_append, (RBPath.perm_plug x fs').length_eq] at hlength₂
  have hpath := RBPath.length_le_elems fs'
  obtain ⟨s₃, t', hfixup, hfixed⟩ :=
    hdetached.fixup h.valid hnil (by omega : fs'.length < fuel)
  have hroot₃ : s₃.root = t'.root := hfixed.place.hangs
  have horder := hdetached.order.trans hfixed.kept.order
  have hsize₃ : s₃.size = (RBPath.plug (.mk .left c a l r) fs).toList.length := by
    rw [horder.size, hsize₁]
    exact h.size
  have hlist₃ : t'.toList = (RBPath.before fs ++ l.toList) ++ (r.toList ++ RBPath.after fs) := by
    rw [hfixed.same, hlist₂, List.append_assoc]
  have hrootnil : s₃.root = none ↔ t' = .nil := by rw [hroot₃, RBTree.root_eq_none]
  have hne : s₃.size ≠ 0 := by omega
  have hnil₃ := hfixed.kept.colour_nil.trans hnil
  have hunchecked := removeUnchecked_eq hunlink hdetach hfixup
  refine ⟨{ s₃.setHead (if s₃.root = none then none else s₃.head) with size := s₃.size - 1 }, t',
    ⟨hfixed.place.congr (fun _ _ => ⟨rfl, fun _ => rfl, rfl⟩) rfl, hfixed.valid, ?_, ?_, fun ht => ?_⟩,
    hlist₃.trans herase.symm, hnil₃, fun hhead => ?_, ⟨s₃, hunchecked, hne, hnil₃⟩, ?_⟩
  · rw [hlist₃]
    exact hthreaded.congr fun side b _ => horder.next side (some b)
  · rw [hlist₃]
    simp only [List.length_append]
    omega
  · exact if_pos (hrootnil.mpr ht)
  · have hhead₃ : s₃.head = t'.toList.head? := by
      rw [hlist₃, horder.head]
      exact hhead₁ (hhead.trans (congrArg List.head? hlist))
    change (if s₃.root = none then none else s₃.head) = _
    split
    · rename_i hroot
      rw [hrootnil.mp hroot]
      rfl
    · exact hhead₃
  · unfold State.remove State.removeNode
    simp only [hunchecked, Except.ok_bind]
    by_cases ht : t' = .nil
    · have hroot := hrootnil.mpr ht
      have hcheck : s₃.headCheck = .ok (s₃.setHead none) := if_pos hroot
      rw [hcheck, Except.ok_bind, if_neg fun h => h.1 ht, if_pos hroot, bugOn,
        State.size_setHead, if_neg hne]
      rfl
    · have hroot : s₃.root ≠ none := fun h => ht (hrootnil.mp h)
      rw [if_neg hroot]
      have hcheck : s₃.headCheck = bugOn (HeadOff s₃) >>= fun _ => pure s₃ := if_neg hroot
      rw [hcheck]
      by_cases hoff : HeadOff s₃
      · rw [if_pos ⟨ht, hoff⟩, bugOn, if_pos hoff]
        rfl
      · rw [if_neg fun h => hoff h.2, bugOn, if_neg hoff]
        simp only [Except.ok_bind, pure_bind]
        rw [bugOn, if_neg hne]
        rfl

omit [DecidableEq α] in
theorem Tidy.not_headOff (h : Tidy s t) (hhead : s.head = t.toList.head?) (ht : t ≠ .nil) :
    ¬ HeadOff s := by
  have hthreaded := h.threaded
  cases hlist : t.toList with
  | nil =>
      obtain ⟨c, a, x, y, rfl⟩ := RBTree.exists_mk .left ht
      rw [RBTree.mk, RBTree.toList] at hlist
      simp at hlist
  | cons b l =>
      rw [hlist] at hhead hthreaded
      have hprev : s.next .left (some b) = none := (hthreaded [] b l rfl).1
      rintro (hnone | hnext)
      · rw [hhead] at hnone
        cases hnone
      · rw [hhead] at hnext
        exact hnext hprev

/-- With the right head the check at the end passes. -/
theorem remove_ok {fuel : ℕ} (h : Tidy s t) (hhead : s.head = t.toList.head?) (ha : a ∈ t.toList)
    (hfuel : t.toList.length < fuel) : ∃ s' t', s.remove fuel a = .ok s' ∧ Tidy s' t' ∧
      t'.toList = t.toList.erase a ∧ s'.colourOf none = .black ∧ s'.head = t'.toList.head? := by
  obtain ⟨s', t', htidy, hlist, hnil, hhead', -, hremove⟩ := remove_spec h ha hfuel
  refine ⟨s', t', hremove.trans (if_neg fun hoff => ?_), htidy, hlist, hnil, hhead' hhead⟩
  exact htidy.not_headOff (hhead' hhead) hoff.1 hoff.2

end Ilobilix.Lib.Rbtree
