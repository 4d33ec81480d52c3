import Ilobilix.Lib.Rbtree.Insert

/-!
# Fixing the colours after a removal

`_remove_fixup` has a place `x`, maybe an empty one, with one black node too few on the ways down
from it: `Lacking`. The parent of an empty place is in the hook of the null pointer.
-/

namespace Ilobilix.Lib.Rbtree

open RedBlack

universe u

variable {α : Type u} [DecidableEq α] {s s' : State α} {x y z : RBTree α} {fs : RBPath α} {side : Side}
  {c cp : Colour} {b d p : α}

/-! ## The rotations around a place -/

/-- A red sibling: its child on the side of `x` is the sibling then. -/
theorem red_spec (h : At s x (⟨side, cp, p, .mk side c b y z⟩ :: fs)) : ∃ s',
    ((s.setColour (some b) .black).setColour (some p) .red).rotate side (some p) = .ok s' ∧
      At s' x (⟨side, .red, p, y⟩ :: ⟨side, .black, b, z⟩ :: fs) ∧ Kept s s' := by
  have hb := (at_sibling.mp h).setColour .black
  have hp := (at_mk.mpr (at_sibling.mpr hb)).setColour .red
  obtain ⟨s', hrotate, hat, hkept⟩ := hp.rotate
  exact ⟨s', hrotate, at_mk.mp (at_mk.mp hat), (Kept.setColour.trans .setColour).trans hkept⟩

/-- A red nephew on the side of `x`: it is the sibling then. -/
theorem near_spec {y₁ y₂ : RBTree α}
    (h : At s x (⟨side, cp, p, .mk side c b (.mk side .red d y₁ y₂) z⟩ :: fs)) : ∃ s',
    ((s.setColour (some d) .black).setColour (some b) .red).rotate side.other (some b) = .ok s' ∧
      At s' x (⟨side, cp, p, .mk side .black d y₁ (.mk side .red b y₂ z)⟩ :: fs) ∧ Kept s s' := by
  have hd := (at_mk.mp (at_sibling.mp h)).setColour .black
  have hb := (at_mk.mpr hd).setColour .red
  rw [← RBTree.mk_other side .red b z, ← RBTree.mk_other side .black d y₂] at hb
  obtain ⟨s', hrotate, hat, hkept⟩ := hb.rotate
  rw [RBTree.mk_other, RBTree.mk_other] at hat
  exact ⟨s', hrotate, at_sibling.mpr hat, (Kept.setColour.trans .setColour).trans hkept⟩

/-- A red nephew on the other side: the sibling comes above the parent of `x`. -/
theorem far_spec {z₁ z₂ : RBTree α} {cd : Colour}
    (h : At s x (⟨side, cp, p, .mk side c b y (.mk side cd d z₁ z₂)⟩ :: fs)) : ∃ s',
    (((s.setColour (some b) cp).setColour (some p) .black).setColour (some d) .black).rotate side
      (some p) = .ok s' ∧
      At s' (.mk side cp b (.mk side .black p x y) (.mk side .black d z₁ z₂)) fs ∧ Kept s s' := by
  have hb := (at_sibling.mp h).setColour cp
  have hp := (at_mk.mpr (at_sibling.mpr hb)).setColour .black
  have hd := at_sibling.mp (at_mk.mp hp)
  rw [← RBTree.mk_other side cp b] at hd
  have hd := (at_mk.mp hd).setColour .black
  have hrotate := at_mk.mpr hd
  rw [RBTree.mk_other] at hrotate
  obtain ⟨s', hrotate, hat, hkept⟩ := (at_mk.mpr (at_sibling.mpr hrotate)).rotate
  exact ⟨s', hrotate, hat, ((Kept.setColour.trans .setColour).trans .setColour).trans hkept⟩

/-! ## A turn -/

omit [DecidableEq α] in
/-- The parent of a place stays in its hook, which is the hook of the null pointer if it is empty. -/
theorem At.parent_kept {fs' : RBPath α} (h : At s' x fs') (hkept : Kept s s')
    (hparent : s.parent x.root = RBPath.parent fs') : s'.parent x.root = RBPath.parent fs' := by
  cases x with
  | nil => exact (congrArg Hook.parent hkept.nil).trans hparent
  | node c l a r => exact h.parent_root nofun

section Turn

omit [DecidableEq α] in
/-- What a turn reads of the nephews. -/
theorem nephews (hnil : s.colourOf none = .black)
    (h : At s x (⟨side, cp, p, .mk side c b y z⟩ :: fs)) :
    s.child side (some b) = y.root ∧ s.child side.other (some b) = z.root ∧
      s.colourOf y.root = y.colour ∧ s.colourOf z.root = z.colour := by
  have hy := at_mk.mp (at_sibling.mp h)
  exact ⟨hy.frame.near, hy.frame.far, hy.colourOf_root hnil, (at_sibling.mp hy).colourOf_root hnil⟩

/-- Two black nephews. -/
theorem removeBlack_recolour (hnil : s.colourOf none = .black) (hparent : s.parent x.root = some p)
    (hy : y.colour = .black) (hz : z.colour = .black)
    (h : At s x (⟨side, cp, p, .mk side .black b y z⟩ :: fs)) : ∃ s',
    s.removeBlack side x.root (some b) = .ok (s', some p) ∧
      At s' (.mk side cp p x (.mk side .red b y z)) fs ∧ Kept s s' := by
  obtain ⟨hnear, hfar, hyc, hzc⟩ := nephews hnil h
  rw [hy] at hyc
  rw [hz] at hzc
  refine ⟨s.setColour (some b) .red, ?_,
    at_mk.mpr (at_sibling.mpr ((at_sibling.mp h).setColour .red)), .setColour⟩
  unfold State.removeBlack
  simp [hnear, hfar, hyc, hzc, hparent]
  rfl

/-- A red nephew: after the rotations no black node is missing. -/
theorem removeBlack_rotate {n : ℕ} (hnil : s.colourOf none = .black)
    (hparent : s.parent x.root = some p) (hyz : ¬(y.colour = .black ∧ z.colour = .black))
    (hy : y.Valid n) (hz : z.Valid n) (h : At s x (⟨side, cp, p, .mk side .black b y z⟩ :: fs)) :
    ∃ s' b' y' z', s.removeBlack side x.root (some b) = .ok (s', s'.root) ∧
      At s' (.mk side cp b' (.mk side .black p x y') z') fs ∧ Kept s s' ∧ y'.Valid n ∧
      z'.colour = .black ∧ z'.Valid (n + 1) ∧
      (RBTree.mk side cp b' (.mk side .black p x y') z').toList =
        (RBTree.mk side cp p x (.mk side .black b y z)).toList := by
  obtain ⟨hnear, hfar, hyc, hzc⟩ := nephews hnil h
  cases hzcolour : z.colour with
  | red =>
      obtain ⟨d, z₁, z₂, rfl⟩ := RBTree.exists_mk_of_red side hzcolour
      obtain ⟨s', hrotate, hat, hkept⟩ := far_spec h
      refine ⟨s', b, y, .mk side .black d z₁ z₂, ?_, hat, hkept, hy, RBTree.colour_mk, ?_, ?_⟩
      · rw [RBTree.root_mk] at hfar hzc
        rw [RBTree.colour_mk] at hzc
        unfold State.removeBlack
        simp [hnear, hfar, hyc, hzc, hparent, h.frame.colour, hrotate]
      · rw [← RBTree.blacken_mk]
        exact hz.blacken_of_red RBTree.colour_mk
      · calc (RBTree.mk side cp b (.mk side .black p x y) (.mk side .black d z₁ z₂)).toList
            = (RBTree.mk side cp p x (.mk side .black b y (.mk side .black d z₁ z₂))).toList :=
              RBTree.toList_rotate side _ _ _ _ _ _ _ _ _
          _ = _ := RBTree.toList_congr side _ _ rfl
              (RBTree.toList_congr side _ _ rfl (RBTree.toList_recolour side _ _ _ _ _))
  | black =>
      have hycolour : y.colour = .red := by
        cases hc : y.colour with
        | red => rfl
        | black => exact absurd ⟨hc, hzcolour⟩ hyz
      obtain ⟨d, y₁, y₂, rfl⟩ := RBTree.exists_mk_of_red side hycolour
      obtain ⟨s₁, hrotate₁, hat₁, hkept₁⟩ := near_spec h
      obtain ⟨s', hrotate, hat, hkept⟩ := far_spec hat₁
      have hparent₁ := hat₁.parent_kept hkept₁ hparent
      obtain ⟨hy₁black, hy₂black, hy₁, hy₂⟩ := RBTree.valid_red.mp hy
      refine ⟨s', d, y₁, .mk side .black b y₂ z, ?_, hat, hkept₁.trans hkept, hy₁, RBTree.colour_mk,
        RBTree.valid_black.mpr ⟨n, rfl, hy₂, hz⟩, ?_⟩
      · obtain ⟨-, hfar₁, -, -⟩ := nephews (hkept₁.colour_nil.trans hnil) hat₁
        have hsibling₁ : s₁.child side.other (some p) = some d := hat₁.frame.far.trans RBTree.root_mk
        rw [hzcolour] at hzc
        rw [RBTree.colour_mk] at hyc
        rw [RBTree.root_mk] at hnear hyc hfar₁
        have hparent' : s₁.parent x.root = some p := hparent₁
        unfold State.removeBlack
        simp [hnear, hfar, hyc, hzc, hrotate₁, hparent', hsibling₁, hat₁.frame.colour, hfar₁, hrotate]
      · calc (RBTree.mk side cp d (.mk side .black p x y₁) (.mk side .black b y₂ z)).toList
            = (RBTree.mk side cp p x (.mk side .black d y₁ (.mk side .black b y₂ z))).toList :=
              RBTree.toList_rotate side _ _ _ _ _ _ _ _ _
          _ = _ := RBTree.toList_congr side _ _ rfl (RBTree.toList_rotate side _ _ _ _ _ _ _ _ _).symm

/-- Below `x` one black node is missing, unless `x` itself becomes black. -/
def Lacking (x : RBTree α) (n : ℕ) : Prop :=
  (x.colour = .black ∧ x.Valid n) ∨ (x.colour = .red ∧ x.blacken.Valid (n + 1))

/-- A place of the loop of `_remove_fixup`. -/
structure Short (s : State α) (x : RBTree α) (fs : RBPath α) (n : ℕ) : Prop where
  place : At s x fs
  parent : s.parent x.root = RBPath.parent fs
  lacking : Lacking x n
  above : RBPath.Valid fs (n + 1)

omit [DecidableEq α] in
theorem Short.valid {n : ℕ} (h : Short s x fs n) (hx : x.colour = .black) : x.Valid n := by
  rcases h.lacking with ⟨-, hvalid⟩ | ⟨hred, -⟩
  · exact hvalid
  · cases hx.symm.trans hred

omit [DecidableEq α] in
/-- The sibling of a place that lacks a black node is not empty. -/
theorem Short.sibling {w : RBTree α} {n : ℕ} (h : Short s x (⟨side, cp, p, w⟩ :: fs) n) :
    w.Valid (n + 1) := by
  cases cp with
  | red => exact h.above.2.1
  | black => exact h.above.1

/-- A turn at a black sibling goes up, or no node is missing after it. -/
theorem removeBlack_spec {w : RBTree α} {n : ℕ} (hnil : s.colourOf none = .black)
    (h : Short s x (⟨side, cp, p, w⟩ :: fs) n) (hx : x.colour = .black) (hw : w.colour = .black) :
    ∃ s' x' fs' m, s.removeBlack side x.root w.root = .ok (s', x'.root) ∧ Short s' x' fs' m ∧
      Kept s s' ∧ (RBPath.plug x' fs').toList = (RBPath.plug x (⟨side, cp, p, w⟩ :: fs)).toList ∧
      (fs' = [] ∨ fs' = fs ∧ x'.colour = cp) := by
  have hxn := h.valid hx
  obtain ⟨b, y, z, rfl, hy, hz⟩ := h.sibling.exists_mk side hw
  have hparent : s.parent x.root = some p := h.parent
  rw [RBTree.root_mk]
  by_cases hyz : y.colour = .black ∧ z.colour = .black
  · obtain ⟨s', hturn, hat, hkept⟩ := removeBlack_recolour hnil hparent hyz.1 hyz.2 h.place
    have hlist : (RBPath.plug (.mk side cp p x (.mk side .red b y z)) fs).toList =
        (RBPath.plug (.mk side cp p x (.mk side .black b y z)) fs).toList :=
      RBPath.toList_plug_congr
        (RBTree.toList_congr side _ _ rfl (RBTree.toList_recolour side _ _ _ _ _)) fs
    have hsibling : (RBTree.mk side .red b y z).Valid n := RBTree.valid_red.mpr ⟨hyz.1, hyz.2, hy, hz⟩
    have hvalid : (RBTree.mk side .black p x (.mk side .red b y z)).Valid (n + 1) :=
      RBTree.valid_black.mpr ⟨n, rfl, hxn, hsibling⟩
    have hroot : (RBTree.mk side cp p x (.mk side .red b y z)).root = some p := RBTree.root_mk
    rw [← hroot] at hturn
    cases cp with
    | red =>
        exact ⟨s', _, fs, n, hturn, ⟨hat, hat.parent_root RBTree.mk_ne_nil,
          .inr ⟨RBTree.colour_mk, RBTree.blacken_mk ▸ hvalid⟩, h.above.2.2.2⟩, hkept, hlist,
          .inr ⟨rfl, RBTree.colour_mk⟩⟩
    | black =>
        exact ⟨s', _, fs, n + 1, hturn, ⟨hat, hat.parent_root RBTree.mk_ne_nil,
          .inl ⟨RBTree.colour_mk, hvalid⟩, h.above.2⟩, hkept, hlist, .inr ⟨rfl, RBTree.colour_mk⟩⟩
  · obtain ⟨s', b', y', z', hturn, hat, hkept, hy', hz'black, hz', hlist⟩ :=
      removeBlack_rotate hnil hparent hyz hy hz h.place
    have hnear : (RBTree.mk side .black p x y').Valid (n + 1) :=
      RBTree.valid_black.mpr ⟨n, rfl, hxn, hy'⟩
    have hvalid : (RBPath.plug (.mk side cp b' (.mk side .black p x y') z') fs).IsRedBlack := by
      cases cp with
      | red =>
          exact RBPath.valid_plug (RBTree.valid_red.mpr ⟨RBTree.colour_mk, hz'black, hnear, hz'⟩)
            h.above.2.2.2 fun _ => h.above.2.2.1
      | black =>
          refine RBPath.valid_plug (RBTree.valid_black.mpr ⟨n + 1, rfl, hnear, hz'⟩) h.above.2
            fun hred => ?_
          rw [RBTree.colour_mk] at hred
          cases hred
    have hplug := at_whole.mpr hat
    have hroot : s'.root = (RBPath.plug (.mk side cp b' (.mk side .black p x y') z') fs).root :=
      hplug.hangs
    obtain ⟨hblack, m, hm⟩ := hvalid
    rw [hroot] at hturn
    exact ⟨s', _, [], m, hturn, ⟨hplug, hplug.parent_root (RBPath.plug_ne_nil RBTree.mk_ne_nil fs),
      .inl ⟨hblack, hm⟩, trivial⟩, hkept, RBPath.toList_plug_congr hlist fs, .inl rfl⟩

/-- A turn goes up, or no node is missing after it. -/
theorem removeTurn_spec {f : Frame α} {n : ℕ} (hnil : s.colourOf none = .black)
    (h : Short s x (f :: fs) n) (hx : x.colour = .black) :
    ∃ s' x' fs' m, s.removeTurn x.root = .ok (s', x'.root) ∧ Short s' x' fs' m ∧ Kept s s' ∧
      (RBPath.plug x' fs').toList = (RBPath.plug x (f :: fs)).toList ∧
      (fs' = [] ∨ x'.colour = .red ∨ fs' = fs) := by
  obtain ⟨side, cp, p, w⟩ := f
  have hparent : s.parent x.root = some p := h.parent
  have hwn := h.sibling
  have hw : w ≠ .nil := by
    rintro rfl
    exact RBTree.not_valid_nil hwn
  have hside : (if x.root = s.child .left (some p) then Side.left else .right) = side :=
    h.place.side_eq (.inr hw)
  have hsibling : s.child side.other (some p) = w.root := h.place.frame.far
  have hcolour := (at_sibling.mp h.place).colourOf_root hnil
  cases hc : w.colour with
  | black =>
      obtain ⟨s', x', fs', m, hturn, hshort, hkept, hlist, hmeasure⟩ := removeBlack_spec hnil h hx hc
      refine ⟨s', x', fs', m, ?_, hshort, hkept, hlist, ?_⟩
      · rw [hc] at hcolour
        unfold State.removeTurn
        simp [hparent, hside, hsibling, hcolour, hturn]
      · exact hmeasure.imp_right fun h => .inr h.1
  | red =>
      obtain ⟨b, y, z, rfl⟩ := RBTree.exists_mk_of_red side hc
      obtain ⟨hyblack, hzblack, hy, hz⟩ := RBTree.valid_red.mp hwn
      obtain rfl : cp = .black := by
        cases cp with
        | red => exact absurd (h.above.1.symm.trans hc) (by decide)
        | black => rfl
      obtain ⟨s₁, hrotate, hat₁, hkept₁⟩ := red_spec h.place
      have hparent₁ : s₁.parent x.root = some p := hat₁.parent_kept hkept₁ hparent
      have hsibling₁ : s₁.child side.other (some p) = y.root := hat₁.frame.far
      obtain ⟨s', x', fs', m, hturn, hshort, hkept, hlist, hmeasure⟩ :=
        removeBlack_spec (hkept₁.colour_nil.trans hnil)
          ⟨hat₁, hparent₁, h.lacking, hyblack, hy, ⟨_, fs, rfl, rfl⟩, hz, h.above.2⟩ hx hyblack
      refine ⟨s', x', fs', m, ?_, hshort, hkept₁.trans hkept, hlist.trans ?_, ?_⟩
      · rw [hc] at hcolour
        rw [RBTree.root_mk] at hsibling hcolour
        unfold State.removeTurn
        simp [hparent, hside, hsibling, hcolour, hrotate, hparent₁, hsibling₁, hturn]
      · exact RBPath.toList_plug_congr (RBTree.toList_rotate side _ _ _ _ _ _ _ _ _) fs
      · exact hmeasure.imp_right fun h => .inl h.2

end Turn

/-! ## The loop -/

omit [DecidableEq α] in
theorem Lacking.blacken {n : ℕ} (h : Lacking x n) : ∃ m, x.blacken.Valid m := by
  rcases h with ⟨-, hvalid⟩ | ⟨-, hvalid⟩
  · exact hvalid.blacken
  · exact ⟨_, hvalid⟩

/-- The end of the loop. -/
theorem removeFixup_end {n fuel : ℕ} (hnil : s.colourOf none = .black) (h : Short s x fs n)
    (hstop : fs = [] ∨ x.colour = .red) (hfuel : 0 < fuel) :
    ∃ s' t', State.removeFixup fuel x.root s = .ok s' ∧ Fixed s (RBPath.plug x fs) s' t' := by
  obtain ⟨fuel, rfl⟩ := Nat.exists_eq_succ_of_ne_zero (Nat.ne_of_gt hfuel)
  obtain ⟨hat, hkept⟩ := h.place.blacken hnil
  have hcolour := h.place.colourOf_root hnil
  have hvalid : (RBPath.plug x.blacken fs).IsRedBlack := by
    rcases h.lacking with ⟨hblack, hvalid⟩ | ⟨-, hvalid⟩
    · rcases hstop with rfl | hred
      · exact hvalid.isRedBlack_blacken
      · cases hblack.symm.trans hred
    · refine RBPath.valid_plug hvalid h.above fun hred => ?_
      rw [RBTree.colour_blacken] at hred
      cases hred
  refine ⟨_, _, if_neg ?_, at_whole.mpr hat, hvalid,
    RBPath.toList_plug_congr (RBTree.toList_blacken x) fs, hkept⟩
  rintro ⟨hroot, hblack⟩
  rcases hstop with rfl | hred
  · exact hroot h.place.hangs.symm
  · rw [hcolour, hred] at hblack
    cases hblack

theorem removeFixup_succ {i j : Option α} {fuel : ℕ} (hi : i ≠ s.root ∧ s.colourOf i = .black)
    (hturn : s.removeTurn i = .ok (s', j)) :
    State.removeFixup (fuel + 1) i s = State.removeFixup fuel j s' := by
  unfold State.removeFixup
  rw [if_pos hi, hturn]
  cases fuel <;> rfl

/-- The loop goes up from a place that lacks a black node. -/
theorem removeFixup_spec {n fuel : ℕ} (hnil : s.colourOf none = .black) (h : Short s x fs n)
    (hfuel : 0 < fuel) (hfuel' : x.colour = .black → fs.length < fuel) :
    ∃ s' t', State.removeFixup fuel x.root s = .ok s' ∧ Fixed s (RBPath.plug x fs) s' t' := by
  induction fuel generalizing s x fs n with
  | zero => omega
  | succ fuel ih =>
      cases hx : x.colour with
      | red => exact removeFixup_end hnil h (.inr hx) hfuel
      | black =>
          cases fs with
          | nil => exact removeFixup_end hnil h (.inl rfl) hfuel
          | cons f fs =>
              have hlen := hfuel' hx
              simp only [List.length_cons] at hlen
              obtain ⟨s₁, x₁, fs₁, m, hturn, hshort, hkept, hlist, hmeasure⟩ :=
                removeTurn_spec hnil h hx
              obtain ⟨s', t', hfixup, hfixed⟩ := ih (hkept.colour_nil.trans hnil) hshort (by omega)
                fun hblack => by
                  rcases hmeasure with rfl | hred | rfl
                  · exact Nat.zero_lt_of_lt (Nat.lt_of_succ_lt_succ hlen)
                  · cases hblack.symm.trans hred
                  · omega
              have hcolour : s.colourOf x.root = .black := (h.place.colourOf_root hnil).trans hx
              exact ⟨s', t', (removeFixup_succ ⟨h.place.root_ne, hcolour⟩ hturn).trans hfixup,
                hfixed.trans hkept hlist⟩

end Ilobilix.Lib.Rbtree
