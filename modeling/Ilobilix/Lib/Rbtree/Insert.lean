import Ilobilix.Lib.Rbtree.Shape

/-!
# Insertion

The loop of `insert_fixup` has a red node that may be below a red node, in a tree that is right
elsewhere: `insertFixup_spec` follows it up. Then `insert_spec` says what an insertion does to the
tree and to the list.
-/

namespace Ilobilix.Lib.Rbtree

open RedBlack

universe u

variable {α : Type u} [DecidableEq α] {s s' : State α} {t z : RBTree α} {fs : RBPath α} {side : Side}

/-! ## Fixing the colours -/

/-- The recolouring and the rotation of an outer grandchild `z`. -/
theorem outer_spec {p g : α} {x y : RBTree α} (h : At s z
    (⟨side, .red, p, x⟩ :: ⟨side, .black, g, y⟩ :: fs)) : ∃ s',
    ((s.setColour (some p) .black).setColour (some g) .red).rotate side.other (some g) = .ok s' ∧
      At s' z (⟨side, .black, p, .mk side .red g x y⟩ :: fs) ∧ Kept s s' := by
  have hp := at_mk.mp ((at_mk.mpr h).setColour .black)
  have hg := (at_mk.mpr (at_mk.mpr hp)).setColour .red
  rw [← RBTree.mk_other side .red g y, ← RBTree.mk_other side .black p x] at hg
  obtain ⟨s', hrotate, hat, hkept⟩ := hg.rotate
  rw [RBTree.mk_other, RBTree.mk_other] at hat
  exact ⟨s', hrotate, at_mk.mp hat, (Kept.setColour.trans .setColour).trans hkept⟩

section Turn

variable {side' : Side} {p g : α} {x y : RBTree α}

/-- The links that a turn at `z` reads. -/
theorem insertTurn_links (hz : z ≠ .nil)
    (h : At s z (⟨side', .red, p, x⟩ :: ⟨side, .black, g, y⟩ :: fs)) :
    s.parent z.root = some p ∧ s.parent (some p) = some g ∧
      s.child side.other (some g) = y.root ∧
      (if some p = s.child .left (some g) then Side.left else .right) = side := by
  have hp := at_mk.mpr h
  have hside := hp.side_eq (.inl RBTree.mk_ne_nil)
  rw [RBTree.root_mk] at hside
  exact ⟨h.parent_root hz, h.frame.parent, hp.frame.far, hside⟩

/-- A red uncle: the grandparent becomes red, and is the next to look at. -/
theorem insertTurn_red (hz : z ≠ .nil) (hnil : s.colourOf none = .black) (hy : y.colour = .red)
    (h : At s z (⟨side', .red, p, x⟩ :: ⟨side, .black, g, y⟩ :: fs)) : ∃ s',
    s.insertTurn z.root = .ok (s', some g) ∧
      At s' (.mk side .red g (.mk side' .black p z x) y.blacken) fs ∧ Kept s s' := by
  obtain ⟨hparent, hgrand, huncle, hside⟩ := insertTurn_links hz h
  obtain ⟨c, b, l, r, rfl⟩ : ∃ c b l r, y = .mk .left c b l r := by
    refine RBTree.exists_mk .left ?_
    rintro rfl
    cases hy
  have hcolour := (at_sibling.mp (at_mk.mpr h)).colourOf_root hnil
  rw [hy, RBTree.root_mk] at hcolour
  have hp := at_sibling.mp ((at_mk.mpr h).setColour .black)
  have hg := (at_mk.mpr (hp.setColour .black)).setColour .red
  rw [RBTree.mk_other] at hg
  rw [RBTree.blacken_mk]
  refine ⟨_, ?_, hg, (Kept.setColour.trans .setColour).trans .setColour⟩
  unfold State.insertTurn
  simp [hparent, hgrand, hside, huncle, hcolour]
  rfl

/-- A black uncle, and `z` on the outer side: the rotation of the grandparent. -/
theorem insertTurn_outer (hz : z ≠ .nil) (hnil : s.colourOf none = .black) (hy : y.colour = .black)
    (h : At s z (⟨side, .red, p, x⟩ :: ⟨side, .black, g, y⟩ :: fs)) : ∃ s',
    s.insertTurn z.root = .ok (s', z.root) ∧
      At s' z (⟨side, .black, p, .mk side .red g x y⟩ :: fs) ∧ Kept s s' := by
  obtain ⟨hparent, hgrand, huncle, hside⟩ := insertTurn_links hz h
  have hcolour := (at_sibling.mp (at_mk.mpr h)).colourOf_root hnil
  rw [hy] at hcolour
  have hfar : z.root ≠ s.child side.other (some p) := h.frame.far ▸ h.root_ne_sibling (.inl hz)
  obtain ⟨s', hrotate, hat, hkept⟩ := outer_spec h
  refine ⟨s', ?_, hat, hkept⟩
  unfold State.insertTurn
  simp [hparent, hgrand, hside, huncle, hcolour, hfar, hrotate]

/-- A black uncle, and `z` on the inner side: it is rotated above its parent first, which is then the
grandchild on the outer side. -/
theorem insertTurn_inner {a : α} {l r : RBTree α} (hnil : s.colourOf none = .black)
    (hy : y.colour = .black)
    (h : At s (.mk side .red a l r) (⟨side.other, .red, p, x⟩ :: ⟨side, .black, g, y⟩ :: fs)) :
    ∃ s', s.insertTurn (some a) = .ok (s', some p) ∧
      At s' (.mk side .red p x l) (⟨side, .black, a, .mk side .red g r y⟩ :: fs) ∧ Kept s s' := by
  obtain ⟨hparent, hgrand, huncle, hside⟩ := insertTurn_links RBTree.mk_ne_nil h
  have hcolour := (at_sibling.mp (at_mk.mpr h)).colourOf_root hnil
  rw [hy] at hcolour
  rw [RBTree.root_mk] at hparent
  have hnear := h.frame.near
  rw [RBTree.root_mk] at hnear
  have hp := at_mk.mpr h
  rw [RBTree.mk_other] at hp
  obtain ⟨s₁, hrotate₁, hat₁, hkept₁⟩ := hp.rotate
  obtain ⟨hparent', hgrand', -, -⟩ := insertTurn_links RBTree.mk_ne_nil (at_mk.mp hat₁)
  rw [RBTree.root_mk] at hparent'
  obtain ⟨s', hrotate, hat, hkept⟩ := outer_spec (at_mk.mp hat₁)
  refine ⟨s', ?_, hat, hkept₁.trans hkept⟩
  unfold State.insertTurn
  simp [hparent, hgrand, hside, huncle, hcolour, hnear, hrotate₁, hparent', hgrand', hrotate]

end Turn

/-- A loop has made a red-black tree of `t`, with the elements of `t` in their order. -/
structure Fixed (s : State α) (t : RBTree α) (s' : State α) (t' : RBTree α) : Prop where
  place : At s' t' []
  valid : t'.IsRedBlack
  same : t'.toList = t.toList
  kept : Kept s s'

omit [DecidableEq α] in
theorem Fixed.trans {s₁ : State α} {t₁ t₂ : RBTree α} (hkept : Kept s s₁) (hsame : t₁.toList = t.toList)
    (h : Fixed s₁ t₁ s' t₂) : Fixed s t s' t₂ :=
  ⟨h.place, h.valid, h.same.trans hsame, hkept.trans h.kept⟩

/-- The end of the loop. -/
theorem insertFixup_of_black {i : Option α} {n fuel : ℕ} (hnil : s.colourOf none = .black)
    (h : At s z fs) (hvalid : (RBPath.plug z fs).Valid n) (hi : s.colourOf (s.parent i) = .black)
    (hfuel : 0 < fuel) :
    ∃ s' t', State.insertFixup fuel i s = .ok s' ∧ Fixed s (RBPath.plug z fs) s' t' := by
  obtain ⟨fuel, rfl⟩ := Nat.exists_eq_succ_of_ne_zero (Nat.ne_of_gt hfuel)
  have hplug := at_whole.mpr h
  have hroot : s.root = (RBPath.plug z fs).root := hplug.hangs
  obtain ⟨hat, hkept⟩ := hplug.blacken hnil
  rw [← hroot] at hat hkept
  exact ⟨_, _, if_neg (by simp [hi]), hat, hvalid.isRedBlack_blacken, RBTree.toList_blacken _, hkept⟩

theorem insertFixup_succ {i j : Option α} {fuel : ℕ} (hred : s.colourOf (s.parent i) = .red)
    (hturn : s.insertTurn i = .ok (s', j)) :
    State.insertFixup (fuel + 1) i s = State.insertFixup fuel j s' := by
  unfold State.insertFixup
  rw [if_pos hred, hturn]
  cases fuel <;> rfl

omit [DecidableEq α] in
/-- The order of the elements around a rotation of `insertTurn_inner`. -/
theorem toList_inner (side : Side) (p a g : α) (x l r y : RBTree α) :
    (RBTree.mk side .black a (.mk side .red p x l) (.mk side .red g r y)).toList =
      (RBTree.mk side .black g (.mk side.other .red p (.mk side .red a l r) x) y).toList := by
  calc (RBTree.mk side .black a (.mk side .red p x l) (.mk side .red g r y)).toList
      = (RBTree.mk side .black g (.mk side .black a (.mk side .red p x l) r) y).toList :=
        (RBTree.toList_rotate side _ _ _ _ _ _ _ _ _).symm
    _ = (RBTree.mk side .black g (.mk side .red p x (.mk side .red a l r)) y).toList :=
        RBTree.toList_congr side _ _ (RBTree.toList_rotate side _ _ _ _ _ _ _ _ _) rfl
    _ = _ := by rw [← RBTree.mk_other side .red p]

/-- The loop goes up from a red node `a`. Above it the rules hold for the black nodes that are below
`a`, and so the loop never turns where there is no grandparent. -/
theorem insertFixup_spec {a : α} {l r : RBTree α} {n fuel : ℕ} (hnil : s.colourOf none = .black)
    (h : At s (.mk side .red a l r) fs) (hz : (RBTree.mk side .red a l r).Valid n)
    (hfs : RBPath.Valid fs n) (hfuel : fs.length < fuel) :
    ∃ s' t', State.insertFixup fuel (some a) s = .ok s' ∧
      Fixed s (RBPath.plug (.mk side .red a l r) fs) s' t' := by
  induction fuel generalizing s side a l r fs n with
  | zero => omega
  | succ fuel ih =>
      have hparent := h.parent_root RBTree.mk_ne_nil
      rw [RBTree.root_mk] at hparent
      match fs, hfs with
      | [], _ =>
          refine insertFixup_of_black hnil h hz ?_ (by omega)
          rw [hparent]
          exact hnil
      | ⟨side', .black, p, x⟩ :: fs, hfs =>
          obtain ⟨-, m, hm⟩ := RBPath.valid_plug hz hfs fun _ => ⟨_, fs, rfl, rfl⟩
          refine insertFixup_of_black hnil h hm ?_ (by omega)
          rw [hparent]
          exact h.frame.colour
      | ⟨side', .red, p, x⟩ :: [], hfs => exact absurd rfl hfs.2.2.1.ne_nil
      | ⟨side', .red, p, x⟩ :: ⟨side₂, c, g, y⟩ :: fs, hfs =>
          obtain ⟨hxblack, hx, ⟨_, _, hcons, hc⟩, hrest⟩ := hfs
          cases hcons
          cases hc
          have hred : s.colourOf (s.parent (some a)) = .red := by
            rw [hparent]
            exact h.frame.colour
          simp only [List.length_cons] at hfuel
          cases hy : y.colour with
          | red =>
              obtain ⟨s₁, hturn, hat, hkept⟩ := insertTurn_red RBTree.mk_ne_nil hnil hy h
              rw [RBTree.root_mk] at hturn
              obtain ⟨s', t', hfixup, hfixed⟩ := ih (hkept.colour_nil.trans hnil) hat
                (RBTree.valid_red.mpr ⟨RBTree.colour_mk, RBTree.colour_blacken y,
                  RBTree.valid_black.mpr ⟨n, rfl, hz, hx⟩, hrest.1.blacken_of_red hy⟩) hrest.2
                (by omega)
              refine ⟨s', t', (insertFixup_succ hred hturn).trans hfixup, hfixed.trans hkept ?_⟩
              exact RBPath.toList_plug_congr ((RBTree.toList_recolour side₂ _ _ _ _ _).trans
                (RBTree.toList_congr side₂ _ _ (RBTree.toList_recolour side' _ _ _ _ _)
                  (RBTree.toList_blacken y))) fs
          | black =>
              rcases Side.eq_or_other side' side₂ with rfl | rfl
              · obtain ⟨s₁, hturn, hat, hkept⟩ := insertTurn_outer RBTree.mk_ne_nil hnil hy h
                rw [RBTree.root_mk] at hturn
                obtain ⟨s', t', hfixup, hfixed⟩ := ih (hkept.colour_nil.trans hnil) hat hz
                  ⟨RBTree.valid_red.mpr ⟨hxblack, hy, hx, hrest.1⟩, hrest.2⟩
                  (by simp only [List.length_cons]; omega)
                refine ⟨s', t', (insertFixup_succ hred hturn).trans hfixup, hfixed.trans hkept ?_⟩
                exact RBPath.toList_plug_congr (RBTree.toList_rotate side' _ _ _ _ _ _ _ _ _).symm fs
              · obtain ⟨l', r', heq⟩ := RBTree.mk_eq_mk side side₂ .red a l r
                rw [heq] at h hz ⊢
                obtain ⟨s₁, hturn, hat, hkept⟩ := insertTurn_inner hnil hy h
                obtain ⟨hlblack, hrblack, hl, hr⟩ := RBTree.valid_red.mp hz
                obtain ⟨s', t', hfixup, hfixed⟩ := ih (hkept.colour_nil.trans hnil) hat
                  (RBTree.valid_red.mpr ⟨hxblack, hlblack, hx, hl⟩)
                  ⟨RBTree.valid_red.mpr ⟨hrblack, hy, hr, hrest.1⟩, hrest.2⟩
                  (by simp only [List.length_cons]; omega)
                refine ⟨s', t', (insertFixup_succ hred hturn).trans hfixup, hfixed.trans hkept ?_⟩
                exact RBPath.toList_plug_congr (toList_inner side₂ p a g x l' r' y) fs

/-! ## Finding the place -/

/-- The path goes by the comparison with `a`. -/
def Chosen (less : α → α → Bool) (a : α) (fs : RBPath α) : Prop :=
  ∀ f ∈ fs, f.side = if less a f.elem then Side.left else .right

omit [DecidableEq α] in
theorem descend_spec (less : α → α → Bool) (a : α) {fuel : ℕ} (h : At s t fs)
    (hchosen : Chosen less a fs) (hfuel : t.toList.length < fuel) : ∃ fs',
      State.descend less a s fuel t.root (RBPath.parent fs) = .ok (RBPath.parent fs') ∧
      At s .nil fs' ∧ RBPath.plug .nil fs' = RBPath.plug t fs ∧ Chosen less a fs' := by
  induction t generalizing fs fuel with
  | nil =>
      obtain ⟨fuel, rfl⟩ := Nat.exists_eq_succ_of_ne_zero (Nat.ne_of_gt hfuel)
      exact ⟨fs, rfl, h, rfl, hchosen⟩
  | node c l b r ihl ihr =>
      obtain ⟨fuel, rfl⟩ := Nat.exists_eq_succ_of_ne_zero (Nat.ne_of_gt (Nat.zero_lt_of_lt hfuel))
      simp only [RBTree.toList, List.length_append, List.length_cons] at hfuel
      have hnode := h.shape.1
      unfold RBTree.root State.descend
      cases hless : less a b with
      | true =>
          have hat : At s l (⟨.left, c, b, r⟩ :: fs) := at_mk.mp h
          have hcons : Chosen less a (⟨.left, c, b, r⟩ :: fs) := by
            refine List.forall_mem_cons.mpr ⟨?_, hchosen⟩
            rw [hless, if_pos rfl]
          have hrec := ihl hat hcons (by omega : l.toList.length < fuel)
          rwa [if_pos rfl, hnode.near]
      | false =>
          have hat : At s r (⟨.right, c, b, l⟩ :: fs) := at_mk.mp h
          have hcons : Chosen less a (⟨.right, c, b, l⟩ :: fs) := by
            refine List.forall_mem_cons.mpr ⟨?_, hchosen⟩
            rw [hless, if_neg Bool.false_ne_true]
          have hrec := ihr hat hcons (by omega : r.toList.length < fuel)
          have hfar : s.child .right (some b) = r.root := hnode.far
          rwa [if_neg Bool.false_ne_true, hfar]

/-! ## Linking -/

namespace State

variable {i j k : Option α} {side' : Side}

theorem parent_link : (s.link side i j).parent k = s.parent k := by
  unfold link
  dsimp only
  split_ifs <;> simp_all

theorem child_link :
    (s.link side i j).child side' k = if side' = side ∧ k = j then i else s.child side' k := by
  unfold link
  dsimp only
  split_ifs <;> simp_all

theorem colourOf_link : (s.link side i j).colourOf k = s.colourOf k := by
  unfold link
  dsimp only
  split_ifs <;> simp_all

theorem root_link : (s.link side i j).root = s.root := by
  unfold link
  dsimp only
  split_ifs <;> simp_all

theorem next_link (hij : j ≠ i) : (s.link side i j).next side' k =
    if side' = side ∧ k = j then i
    else if s.next side j ≠ none ∧ side' = side.other ∧ k = s.next side j then i
    else if side' = side ∧ k = i then s.next side j
    else if side' = side.other ∧ k = i then j else s.next side' k := by
  unfold link
  by_cases hbeyond : s.next side j = none
  · simp [hbeyond, hij, (Side.other_ne side).symm]
  · simp [hbeyond, hij, (Side.other_ne side).symm]

end State

/-- The list when `a` is linked before `b`. -/
theorem Threaded.link_left {l₁ l₂ : List α} {a b : α} (h : Threaded s (l₁ ++ b :: l₂))
    (hnodup : (l₁ ++ b :: l₂).Nodup) (ha : a ∉ l₁ ++ b :: l₂) :
    Threaded (s.link .left (some a) (some b)) (l₁ ++ a :: b :: l₂) := by
  have hbeyond : s.next .left (some b) = l₁.getLast? := Linked.prev_eq h
  have hne : ∀ c ∈ l₁ ++ b :: l₂, c ≠ a := fun c hc heq => ha (heq ▸ hc)
  have hlast : ∀ c, l₁.getLast? = some c → c ≠ a := fun c hc =>
    hne c (List.mem_append_left _ (List.mem_of_getLast? hc))
  have hba : b ≠ a := hne b (by simp)
  have hnext : ∀ side' k, (s.link .left (some a) (some b)).next side' k = _ := fun side' k =>
    State.next_link (by simpa using hba)
  rw [hbeyond] at hnext
  refine Linked.insert h hnodup ?_ ?_ (fun c hc hcl => ?_) (fun c hcl => ?_) (fun c hc hcb => ?_)
    fun c hcb => ?_
  · have hal : some a ≠ l₁.getLast? := fun heq => hlast a heq.symm rfl
    simp [hnext, Side.other, hal]
  · simp [hnext, hba.symm]
  · simp [hnext, hne c hc, Ne.symm hcl]
  · simp [hnext, hcl, Side.other]
  · have hcb' : c ≠ b := fun heq => hcb (by rw [heq]; rfl)
    simp [hnext, hne c hc, hcb', Side.other]
  · obtain rfl : b = c := Option.some.inj hcb
    simp [hnext]

/-- The list when `a` is linked after `b`. -/
theorem Threaded.link_right {l₁ l₂ : List α} {a b : α} (h : Threaded s (l₁ ++ b :: l₂))
    (hnodup : (l₁ ++ b :: l₂).Nodup) (ha : a ∉ l₁ ++ b :: l₂) :
    Threaded (s.link .right (some a) (some b)) ((l₁ ++ [b]) ++ a :: l₂) := by
  have hbeyond : s.next .right (some b) = l₂.head? := Linked.next_eq h
  have hne : ∀ c ∈ l₁ ++ b :: l₂, c ≠ a := fun c hc heq => ha (heq ▸ hc)
  have hhead : ∀ c, l₂.head? = some c → c ≠ a := fun c hc =>
    hne c (List.mem_append_right _ (List.mem_cons_of_mem b (List.mem_of_head? hc)))
  have hba : b ≠ a := hne b (by simp)
  have hnext : ∀ side' k, (s.link .right (some a) (some b)).next side' k = _ := fun side' k =>
    State.next_link (by simpa using hba)
  rw [hbeyond] at hnext
  rw [List.append_cons] at hnodup hne
  unfold Threaded at h
  rw [List.append_cons] at h
  refine h.insert hnodup ?_ ?_ (fun c hc hcl => ?_) (fun c hcl => ?_) (fun c hc hcb => ?_)
    fun c hcb => ?_
  · simp [hnext, hba.symm]
  · have hal : some a ≠ l₂.head? := fun heq => hhead a heq.symm rfl
    simp [hnext, Side.other, hal]
  · have hcb : c ≠ b := fun heq => hcl (by simp [heq])
    simp [hnext, hne c hc, hcb, Side.other]
  · obtain rfl : b = c := by simpa using hcl
    simp [hnext]
  · simp [hnext, hne c hc, Ne.symm hcb, Side.other]
  · simp [hnext, hcb, Side.other]

/-- The list when `a` is linked to the node above an empty place. -/
theorem Threaded.link {f : Frame α} {a : α}
    (h : Threaded s (RBPath.before (f :: fs) ++ RBPath.after (f :: fs)))
    (hnodup : (RBPath.before (f :: fs) ++ RBPath.after (f :: fs)).Nodup)
    (ha : a ∉ RBPath.before (f :: fs) ++ RBPath.after (f :: fs)) :
    Threaded (s.link f.side (some a) (some f.elem))
      (RBPath.before (f :: fs) ++ a :: RBPath.after (f :: fs)) := by
  cases hside : f.side with
  | left =>
      simp only [RBPath.before, RBPath.after, hside, List.append_nil, List.cons_append] at h hnodup ha ⊢
      exact h.link_left hnodup ha
  | right =>
      simp only [RBPath.before, RBPath.after, hside, List.nil_append, ← List.append_assoc]
        at h hnodup ha ⊢
      rw [← List.append_cons] at h hnodup ha
      exact h.link_right hnodup ha

/-- The writes of `_insert` before the head is looked at. -/
def State.hang (side : Side) (a b : α) (s : State α) : State α :=
  ((((s.setParent (some a) (some b)).link side (some a) (some b)).setChild .left (some a)
    none).setChild .right (some a) none).setColour (some a) .red

theorem State.head_hang {a b : α} : (s.hang side a b).head = s.head := by
  unfold State.hang State.link
  dsimp only
  split <;> rfl

theorem State.size_hang {a b : α} : (s.hang side a b).size = s.size := by
  unfold State.hang State.link
  dsimp only
  split <;> rfl

section Hang

variable {a b c : α} {side' : Side}

theorem node_hang : Node (s.hang side a b) a (some b) .left .red none none := by
  refine ⟨?_, ?_, ?_, ?_⟩
  · simp [State.hang, State.parent_link]
  · simp [State.hang]
  · simp [State.hang, Side.other]
  · simp [State.hang]

theorem sameLinks_hang (ha : c ≠ a) (hb : c ≠ b) : SameLinks s (s.hang side a b) (some c) := by
  refine ⟨?_, fun side' => ?_, ?_⟩
  · simp [State.hang, State.parent_link, ha]
  · simp [State.hang, State.child_link, ha, hb]
  · simp [State.hang, State.colourOf_link, ha]

end Hang

/-- A new red node at an empty place. -/
theorem At.hang {f : Frame α} {a : α} (h : At s .nil (f :: fs)) (ha : a ∉ RBPath.elems (f :: fs)) :
    At (s.hang f.side a f.elem) (.mk .left .red a .nil .nil) (f :: fs) := by
  obtain ⟨hnode, hsibling, hrest⟩ := h.hangs
  have hdistinct := h.distinct
  have hmem := ha
  rw [RBPath.elems, List.flatMap_cons, ← RBPath.elems] at hmem
  rw [RBPath.elems, List.flatMap_cons, ← RBPath.elems, RBTree.toList, List.nil_append, List.cons_append,
    List.nodup_cons] at hdistinct
  have hsame : ∀ c ∈ f.sibling.toList ++ RBPath.elems fs,
      SameLinks s (s.hang f.side a f.elem) (some c) := by
    rintro c hc
    refine sameLinks_hang ?_ ?_
    · rintro rfl
      exact hmem (List.mem_cons_of_mem _ hc)
    · rintro rfl
      exact hdistinct.1 hc
  have hab : f.elem ≠ a := by
    rintro rfl
    exact hmem (List.mem_append_left _ List.mem_cons_self)
  refine ⟨⟨node_hang, trivial, trivial⟩, ⟨⟨?_, ?_, ?_, ?_⟩, hsibling.congr fun c hc => hsame c ?_,
    hrest.congr (fun c hc => hsame c ?_) ?_⟩, ?_⟩
  · simp [State.hang, State.parent_link, hab, hnode.parent]
  · simp [State.hang, State.child_link, hab]
  · simp [State.hang, State.child_link, hab, Side.other_ne, hnode.far]
  · simp [State.hang, State.colourOf_link, hab, hnode.colour]
  · exact List.mem_append_left _ hc
  · exact List.mem_append_right _ hc
  · simp [State.hang, State.root_link]
  · exact List.nodup_cons.mpr ⟨ha, h.distinct⟩

/-! ## Insertion -/

/-- `t` is the tree that the hooks hold; in-order, it is the list of the neighbours. -/
structure Tidy (s : State α) (t : RBTree α) : Prop where
  place : At s t []
  valid : t.IsRedBlack
  threaded : Threaded s t.toList
  size : s.size = t.toList.length
  empty : t = .nil → s.head = none

omit [DecidableEq α] in
theorem Tidy.nodup (h : Tidy s t) : t.toList.Nodup := by
  simpa [RBPath.elems] using h.place.distinct

omit [DecidableEq α] in
/-- Other hooks may be anything. -/
theorem Tidy.congr (h : Tidy s t) (hhooks : ∀ a ∈ t.toList, s'.hooks (some a) = s.hooks (some a))
    (hroot : s'.root = s.root) (hhead : s'.head = s.head) (hsize : s'.size = s.size) : Tidy s' t := by
  have hlinks : ∀ a ∈ t.toList, SameLinks s s' (some a) := fun a ha =>
    ⟨congrArg Hook.parent (hhooks a ha), fun side => by
      unfold State.child
      rw [hhooks a ha], congrArg Hook.colour (hhooks a ha)⟩
  refine ⟨h.place.congr (fun a ha => hlinks a (by simpa [RBPath.elems] using ha)) hroot, h.valid,
    h.threaded.congr fun side a ha => ?_, hsize.trans h.size, fun ht => hhead.trans (h.empty ht)⟩
  unfold State.next
  rw [hhooks a ha]

/-- The head after the insertion of `a`. -/
def newHead (less : α → α → Bool) (a : α) (head : Option α) : Option α :=
  match head with
  | none => some a
  | some b => if less a b then some a else some b

omit [DecidableEq α] in
theorem setHead_eq (less : α → α → Bool) (a : α) (s : State α) :
    (match s.head with
      | none => { s with head := some a }
      | some head => if less a head then { s with head := some a } else s) =
        s.setHead (newHead less a s.head) := by
  obtain ⟨hooks, root, head, size⟩ := s
  cases head with
  | none => rfl
  | some b => cases hless : less a b <;> simp [State.setHead, newHead, hless]

theorem insertBelow_eq (less : α → α → Bool) {a : α} {f : Frame α} {fuel : ℕ}
    (hdescend : State.descend less a s fuel s.root none = .ok (some f.elem))
    (hside : f.side = if less a f.elem then Side.left else .right) :
    State.insertBelow less fuel a s = State.insertFixup fuel (some a)
      ((s.hang f.side a f.elem).setHead (newHead less a s.head)) := by
  unfold State.insertBelow
  rw [hdescend, hside, ← State.head_hang, ← setHead_eq]
  rfl

theorem insertBelow_spec (less : α → α → Bool) {a : α} {fuel : ℕ} (h : Tidy s t) (ht : t ≠ .nil)
    (ha : a ∉ t.toList) (hnil : s.colourOf none = .black) (hfuel : t.toList.length < fuel) :
    ∃ s' t' fs, State.insertBelow less fuel a s = .ok s' ∧ At s' t' [] ∧ t'.IsRedBlack ∧
      RBPath.plug .nil fs = t ∧ Chosen less a fs ∧
      t'.toList = RBPath.before fs ++ a :: RBPath.after fs ∧ Threaded s' t'.toList ∧
      s'.size = s.size ∧ s'.colourOf none = .black ∧ s'.head = newHead less a s.head := by
  obtain ⟨fs, hdescend, hat, hplug, hchosen⟩ := descend_spec less a h.place nofun hfuel
  change RBPath.plug .nil fs = t at hplug
  have hperm := RBPath.perm_plug .nil fs
  rw [hplug] at hperm
  have hlist := RBPath.toList_plug .nil fs
  rw [hplug] at hlist
  obtain ⟨n, hzero, hvalid, -⟩ := RBPath.valid_of_plug (hplug.symm ▸ h.valid)
  cases fs with
  | nil => exact absurd hplug.symm ht
  | cons f fs =>
      have hhang := hat.hang fun hmem => ha (hperm.mem_iff.mpr hmem)
      have hroot : s.root = t.root := h.place.hangs
      rw [← hroot] at hdescend
      have hat₁ : At ((s.hang f.side a f.elem).setHead (newHead less a s.head))
          (.mk .left .red a .nil .nil) (f :: fs) :=
        hhang.congr (fun _ _ => ⟨rfl, fun _ => rfl, rfl⟩) rfl
      have hnil₁ : ((s.hang f.side a f.elem).setHead (newHead less a s.head)).colourOf none =
          .black := by
        change (s.hang f.side a f.elem).colourOf none = .black
        simpa [State.hang, State.colourOf_link] using hnil
      have hlen := RBPath.length_le_elems (f :: fs)
      rw [hperm.length_eq, RBTree.toList, List.nil_append] at hfuel
      obtain ⟨s', t', hfixup, hfixed⟩ := insertFixup_spec hnil₁ hat₁ ⟨rfl, rfl, rfl, rfl⟩
        (hzero ▸ hvalid) (by omega : (f :: fs).length < fuel)
      have hlist' : t'.toList = RBPath.before (f :: fs) ++ a :: RBPath.after (f :: fs) :=
        hfixed.same.trans (RBPath.toList_plug _ _)
      refine ⟨s', t', f :: fs, ?_, hfixed.place, hfixed.valid, hplug, hchosen, hlist', ?_, ?_, ?_, ?_⟩
      · rw [insertBelow_eq less hdescend (hchosen f List.mem_cons_self), hfixup]
      · rw [hlist']
        have hcongr : Threaded (s.setParent (some a) (some f.elem))
            (RBPath.before (f :: fs) ++ RBPath.after (f :: fs)) :=
          (hlist ▸ h.threaded).congr fun _ _ _ => State.next_setParent
        refine (hcongr.link (hlist ▸ h.nodup) (hlist ▸ ha)).congr fun side' c _ => ?_
        rw [hfixed.kept.order.next]
        change (s.hang f.side a f.elem).next side' (some c) = _
        simp [State.hang]
      · exact hfixed.kept.order.size.trans State.size_hang
      · exact hfixed.kept.colour_nil.trans hnil₁
      · exact hfixed.kept.order.head

theorem insert_spec (less : α → α → Bool) {a : α} {fuel : ℕ} (h : Tidy s t) (ha : a ∉ t.toList)
    (hfuel : t.toList.length < fuel) : ∃ s' t' fs, s.insert less fuel a = .ok s' ∧ Tidy s' t' ∧
      RBPath.plug .nil fs = t ∧ Chosen less a fs ∧
      t'.toList = RBPath.before fs ++ a :: RBPath.after fs ∧ s'.colourOf none = .black ∧
      s'.head = newHead less a s.head := by
  have hreset : Tidy ((s.setHook none .new).setHook (some a) .new) t := by
    refine h.congr (fun b hb => ?_) rfl rfl rfl
    have hba : b ≠ a := fun heq => ha (heq ▸ hb)
    rw [State.hooks_setHook_of_ne (by simpa using hba),
      State.hooks_setHook_of_ne (Option.some_ne_none b)]
  have hnil : ((s.setHook none .new).setHook (some a) .new).colourOf none = .black := by
    unfold State.colourOf
    rw [State.hooks_setHook_of_ne (Option.some_ne_none a).symm, State.hooks_setHook_self]
    rfl
  have hroot : ((s.setHook none .new).setHook (some a) .new).root = t.root := h.place.hangs
  have hnew : ((s.setHook none .new).setHook (some a) .new).hooks (some a) = .new :=
    State.hooks_setHook_self
  have hhead : ((s.setHook none .new).setHook (some a) .new).head = s.head := rfl
  unfold State.insert
  dsimp only
  generalize (s.setHook none .new).setHook (some a) .new = s₀ at hreset hnil hroot hnew hhead ⊢
  rw [← hhead]
  cases t with
  | nil =>
      refine ⟨{ s₀ with root := some a, head := some a, size := s₀.size + 1 },
        .mk .left .black a .nil .nil, [], ?_, ⟨⟨⟨⟨?_, ?_, ?_, ?_⟩, trivial, trivial⟩, rfl,
        List.nodup_singleton a⟩, ⟨rfl, 1, 0, rfl, rfl, rfl⟩, ?_, ?_, nofun⟩, rfl, nofun, rfl, hnil, ?_⟩
      · rw [if_pos (show s₀.root = none from hroot)]
        rfl
      · exact congrArg Hook.parent hnew
      · exact congrArg Hook.left hnew
      · exact congrArg Hook.right hnew
      · exact congrArg Hook.colour hnew
      · exact Linked.insert (hreset.threaded : Linked _ _ ([] ++ [])) List.nodup_nil
          (congrArg Hook.successor hnew) (congrArg Hook.predecessor hnew) nofun nofun nofun nofun
      · exact congrArg (· + 1) hreset.size
      · rw [hreset.empty rfl]
        rfl
  | node c l b r =>
      obtain ⟨s₁, t', fs, hbelow, hat, hvalid, hplug, hchosen, hlist, hthreaded, hsize, hnil',
        hhead'⟩ := insertBelow_spec less hreset nofun ha hnil hfuel
      have hne : s₀.root ≠ none := by
        rw [hroot]
        exact nofun
      refine ⟨{ s₁ with size := s₁.size + 1 }, t', fs, ?_, ⟨?_, hvalid, ?_, ?_, ?_⟩, hplug, hchosen,
        hlist, hnil', hhead'⟩
      · rw [if_neg hne, hbelow]
        rfl
      · exact hat.congr (fun _ _ => ⟨rfl, fun _ => rfl, rfl⟩) rfl
      · exact hthreaded.congr fun _ _ _ => rfl
      · have hlen := congrArg List.length (RBPath.toList_plug .nil fs)
        rw [hplug, ← hreset.size, ← hsize] at hlen
        simp only [hlen, hlist, List.length_append, List.length_cons, RBTree.toList, List.length_nil]
        omega
      · rintro rfl
        simp [RBTree.toList] at hlist

end Ilobilix.Lib.Rbtree
