import Mathlib.Data.List.Pairwise
import Mathlib.Order.Lattice
import Mathlib.Tactic.Tauto

/-!
# Sorted lists of disjoint intervals

Elements with a lower and an upper end, kept in a list sorted by the lower end, as an ordered multiset
keeps them: `emplace` inserts behind the elements with the same key and `eraseKey` removes every
element with a key. `Separated` says that the intervals are nonempty and disjoint. Then keys are
distinct, `eraseKey` removes one element, and an element may be replaced by pieces of it.
-/

namespace Intervals

variable {α β : Type*} [LinearOrder β]

/-- Insertion into an ordered multiset. -/
def emplace (key : α → β) (m : α) : List α → List α
  | [] => [m]
  | x :: l => if key m < key x then m :: x :: l else x :: emplace key m l

/-- Removal of a key from an ordered multiset. -/
def eraseKey (key : α → β) (m : α) (l : List α) : List α := l.filter fun x => key x ≠ key m

/-- An element is erased and its pieces are inserted in order. -/
def replaceEntry (key : α → β) (entry : α) (pieces l : List α) : List α :=
  pieces.foldl (fun l piece => emplace key piece l) (eraseKey key entry l)

/-- Several elements are replaced by their pieces one after the other. -/
def replaceEntries (key : α → β) (pieces : α → List α) (entries l : List α) : List α :=
  entries.foldl (fun l entry => replaceEntry key entry (pieces entry) l) l

@[simp] theorem mem_emplace {key : α → β} {m x : α} {l : List α} :
    x ∈ emplace key m l ↔ x = m ∨ x ∈ l := by
  induction l with
  | nil => rw [emplace, List.mem_singleton]; simp
  | cons y l ih =>
      rw [emplace]
      split
      · exact List.mem_cons
      · rw [List.mem_cons, ih, List.mem_cons, or_left_comm]

/-! ## Lists sorted by a key

What holds without the intervals being disjoint. -/

section Sorted

variable {key : α → β} {pieces : α → List α} {entries l : List α}

theorem mem_foldl_emplace {ms : List α} {x : α} :
    x ∈ ms.foldl (fun l m => emplace key m l) l ↔ x ∈ l ∨ x ∈ ms := by
  induction ms generalizing l with
  | nil => simp
  | cons m ms ih =>
      rw [List.foldl_cons, ih, mem_emplace, List.mem_cons]
      tauto

theorem pairwise_emplace {m : α} (h : l.Pairwise fun a b => key a ≤ key b) :
    (emplace key m l).Pairwise fun a b => key a ≤ key b := by
  induction l with
  | nil => exact List.pairwise_singleton _ m
  | cons x l ih =>
      obtain ⟨hx, hl⟩ := List.pairwise_cons.mp h
      rw [emplace]
      split
      · rename_i hlt
        refine List.pairwise_cons.mpr ⟨fun y hy => ?_, h⟩
        rcases List.mem_cons.mp hy with rfl | hy
        · exact hlt.le
        · exact hlt.le.trans (hx y hy)
      · rename_i hlt
        refine List.pairwise_cons.mpr ⟨fun y hy => ?_, ih hl⟩
        rcases mem_emplace.mp hy with rfl | hy
        · exact not_lt.mp hlt
        · exact hx y hy

theorem pairwise_replaceEntry {e : α} {ms : List α} (h : l.Pairwise fun a b => key a ≤ key b) :
    (replaceEntry key e ms l).Pairwise fun a b => key a ≤ key b := by
  rw [replaceEntry]
  generalize hl : eraseKey key e l = l'
  replace h : l'.Pairwise fun a b => key a ≤ key b := hl ▸ h.filter _
  clear hl
  induction ms generalizing l' with
  | nil => exact h
  | cons m ms ih => exact ih _ (pairwise_emplace h)

theorem pairwise_replaceEntries (h : l.Pairwise fun a b => key a ≤ key b) :
    (replaceEntries key pieces entries l).Pairwise fun a b => key a ≤ key b := by
  induction entries generalizing l with
  | nil => exact h
  | cons e entries ih => exact ih (pairwise_replaceEntry h)

/-- An element of the result was there before or is a piece. -/
theorem mem_of_mem_replaceEntries {x : α} (h : x ∈ replaceEntries key pieces entries l) :
    x ∈ l ∨ ∃ e ∈ entries, x ∈ pieces e := by
  induction entries generalizing l with
  | nil => exact Or.inl h
  | cons e entries ih =>
      rcases ih h with h | ⟨e', he', hx⟩
      · rcases mem_foldl_emplace.mp h with h | h
        · exact Or.inl (List.mem_filter.mp h).1
        · exact Or.inr ⟨e, List.mem_cons_self, h⟩
      · exact Or.inr ⟨e', List.mem_cons_of_mem e he', hx⟩

/-- An element that is replaced and is a piece of none is gone. -/
theorem not_mem_replaceEntries {e : α} (he : e ∈ entries) (hpieces : ∀ e' ∈ entries, e ∉ pieces e') :
    e ∉ replaceEntries key pieces entries l := by
  induction entries generalizing l with
  | nil => cases he
  | cons e' entries ih =>
      have hrest := fun x hx => hpieces x (List.mem_cons_of_mem e' hx)
      by_cases hmem : e ∈ entries
      · exact ih hmem hrest
      · obtain rfl := (List.mem_cons.mp he).resolve_right hmem
        intro h
        change e ∈ replaceEntries key pieces entries (replaceEntry key e (pieces e) l) at h
        rcases mem_of_mem_replaceEntries h with h | ⟨x, hx, hpiece⟩
        · rcases mem_foldl_emplace.mp h with h | h
          · simpa using (List.mem_filter.mp h).2
          · exact hpieces e List.mem_cons_self h
        · exact hrest x hx hpiece

/-- An element of the result was there before and not replaced, or is a piece. -/
theorem mem_replaceEntries_cases {x : α} (h : x ∈ replaceEntries key pieces entries l) :
    (x ∈ l ∧ x ∉ entries) ∨ ∃ e ∈ entries, x ∈ pieces e := by
  by_cases hpiece : ∃ e ∈ entries, x ∈ pieces e
  · exact Or.inr hpiece
  · refine Or.inl ⟨(mem_of_mem_replaceEntries h).resolve_right hpiece, fun hx => ?_⟩
    exact not_mem_replaceEntries hx (fun e he hxe => hpiece ⟨e, he, hxe⟩) h

/-- An element stays if no element with its key is replaced. -/
theorem mem_replaceEntries_of_ne {x : α} (hx : x ∈ l) (hkey : ∀ e ∈ entries, key e ≠ key x) :
    x ∈ replaceEntries key pieces entries l := by
  induction entries generalizing l with
  | nil => exact hx
  | cons e entries ih =>
      refine ih (mem_foldl_emplace.mpr (Or.inl (List.mem_filter.mpr ⟨hx, ?_⟩)))
        fun e' he' => hkey e' (List.mem_cons_of_mem e he')
      simpa using (hkey e List.mem_cons_self).symm

/-- A piece stays if its element is the only one with its key that is replaced. -/
theorem mem_replaceEntries_of_piece {e x : α} (he : e ∈ entries) (hx : x ∈ pieces e)
    (hkey : ∀ f ∈ entries, key f = key x → f = e) : x ∈ replaceEntries key pieces entries l := by
  induction entries generalizing l with
  | nil => cases he
  | cons f entries ih =>
      have hrest := fun g hg => hkey g (List.mem_cons_of_mem f hg)
      by_cases hmem : e ∈ entries
      · exact ih hmem hrest
      · obtain rfl := (List.mem_cons.mp he).resolve_right hmem
        have hin : x ∈ replaceEntry key e (pieces e) l := mem_foldl_emplace.mpr (Or.inr hx)
        change x ∈ replaceEntries key pieces entries (replaceEntry key e (pieces e) l)
        exact mem_replaceEntries_of_ne hin fun g hg heq => hmem (hrest g hg heq ▸ hg)

end Sorted

variable {lo hi : α → β}

/-- Two intervals without a common point. -/
def Apart (lo hi : α → β) (a b : α) : Prop := hi a ≤ lo b ∨ hi b ≤ lo a

/-- The point lies in the interval. -/
def Covers (lo hi : α → β) (m : α) (p : β) : Prop := lo m ≤ p ∧ p < hi m

instance (m : α) (p : β) : Decidable (Covers lo hi m p) := inferInstanceAs (Decidable (_ ∧ _))

theorem Apart.symm {a b : α} (h : Apart lo hi a b) : Apart lo hi b a := Or.symm h

theorem Apart.not_covers {a b : α} {p : β} (h : Apart lo hi a b) (ha : Covers lo hi a p) :
    ¬ Covers lo hi b p := by
  rintro ⟨hlo, hhi⟩
  rcases h with h | h
  · exact absurd (lt_of_lt_of_le ha.2 (le_trans h hlo)) (lt_irrefl p)
  · exact absurd (lt_of_lt_of_le hhi (le_trans h ha.1)) (lt_irrefl p)

/-- Nonempty and disjoint intervals in ascending order. -/
structure Separated (lo hi : α → β) (l : List α) : Prop where
  nonempty : ∀ m ∈ l, lo m < hi m
  sorted : l.Pairwise fun a b => hi a ≤ lo b

/-- The pieces are nonempty and disjoint parts of the element. -/
structure PiecesOf (lo hi : α → β) (entry : α) (pieces : List α) : Prop where
  within : ∀ m ∈ pieces, lo entry ≤ lo m ∧ lo m < hi m ∧ hi m ≤ hi entry
  apart : pieces.Pairwise (Apart lo hi)

theorem PiecesOf.nil (entry : α) : PiecesOf lo hi entry [] := ⟨by simp, List.Pairwise.nil⟩

/-- A point of a piece is a point of the element. -/
theorem PiecesOf.covers {entry m : α} {pieces : List α} (h : PiecesOf lo hi entry pieces)
    (hm : m ∈ pieces) {p : β} (hp : Covers lo hi m p) : Covers lo hi entry p := by
  obtain ⟨hlo, -, hhi⟩ := h.within m hm
  exact ⟨le_trans hlo hp.1, lt_of_lt_of_le hp.2 hhi⟩

/-- What is apart from the element is apart from its pieces. -/
theorem PiecesOf.apart_of {entry m x : α} {pieces : List α} (h : PiecesOf lo hi entry pieces)
    (hm : m ∈ pieces) (hx : Apart lo hi x entry) : Apart lo hi x m := by
  obtain ⟨hlo, -, hhi⟩ := h.within m hm
  rcases hx with hx | hx
  · exact Or.inl (le_trans hx hlo)
  · exact Or.inr (le_trans hhi hx)

namespace Separated

variable {l : List α}

theorem nil : Separated lo hi [] := ⟨by simp, List.Pairwise.nil⟩

theorem of_cons {x : α} (h : Separated lo hi (x :: l)) : Separated lo hi l :=
  ⟨fun m hm => h.nonempty m (List.mem_cons_of_mem x hm), (List.pairwise_cons.mp h.sorted).2⟩

theorem filter (h : Separated lo hi l) (p : α → Bool) : Separated lo hi (l.filter p) :=
  ⟨fun m hm => h.nonempty m (List.mem_filter.mp hm).1, h.sorted.filter p⟩

/-- Two elements are equal or disjoint. -/
theorem apart (h : Separated lo hi l) {a b : α} (ha : a ∈ l) (hb : b ∈ l) (hne : a ≠ b) :
    Apart lo hi a b := by
  refine List.Pairwise.forall_of_forall_of_flip (R := fun a b => a ≠ b → Apart lo hi a b)
    ?_ ?_ ?_ ha hb hne
  · intro x _ hx
    exact absurd rfl hx
  · exact h.sorted.imp fun hab _ => Or.inl hab
  · exact h.sorted.imp fun hab _ => Or.inr hab

/-- A point lies in at most one element. -/
theorem eq_of_covers (h : Separated lo hi l) {a b : α} {p : β} (ha : a ∈ l) (hb : b ∈ l)
    (hap : Covers lo hi a p) (hbp : Covers lo hi b p) : a = b := by
  by_contra hne
  exact (h.apart ha hb hne).not_covers hap hbp

/-- Keys are distinct. -/
theorem key_inj (h : Separated lo hi l) {a b : α} (ha : a ∈ l) (hb : b ∈ l) :
    lo a = lo b ↔ a = b := by
  refine ⟨fun hkey => ?_, fun hab => hab ▸ rfl⟩
  exact h.eq_of_covers ha hb ⟨le_rfl, h.nonempty a ha⟩ ⟨hkey ▸ le_rfl, hkey ▸ h.nonempty b hb⟩

theorem nodup (h : Separated lo hi l) : l.Nodup := by
  refine h.sorted.imp_of_mem fun {a b} ha hb hab heq => ?_
  subst heq
  exact absurd (lt_of_lt_of_le (h.nonempty a ha) hab) (lt_irrefl _)

/-- The elements up to the first one without a property, in terms of the order. -/
theorem mem_takeWhile (h : Separated lo hi l) {P : α → Bool} {e : α} :
    e ∈ l.takeWhile P ↔ e ∈ l ∧ ∀ x ∈ l, lo x ≤ lo e → P x = true := by
  induction l with
  | nil => simp
  | cons y l ih =>
      have hy : ∀ x ∈ l, lo y < lo x := fun x hx =>
        lt_of_lt_of_le (h.nonempty y List.mem_cons_self) ((List.pairwise_cons.mp h.sorted).1 x hx)
      by_cases hP : P y = true
      · rw [List.takeWhile_cons_of_pos hP, List.mem_cons, List.mem_cons, ih h.of_cons]
        constructor
        · rintro (rfl | ⟨he, hall⟩)
          · refine ⟨Or.inl rfl, fun x hx hle => ?_⟩
            rcases List.mem_cons.mp hx with rfl | hx
            · exact hP
            · exact absurd (lt_of_lt_of_le (hy x hx) hle) (lt_irrefl _)
          · refine ⟨Or.inr he, fun x hx hle => ?_⟩
            rcases List.mem_cons.mp hx with rfl | hx
            · exact hP
            · exact hall x hx hle
        · rintro ⟨rfl | he, hall⟩
          · exact Or.inl rfl
          · exact Or.inr ⟨he, fun x hx => hall x (List.mem_cons_of_mem y hx)⟩
      · rw [List.takeWhile_cons_of_neg hP]
        constructor
        · intro he
          cases he
        · rintro ⟨he, hall⟩
          refine absurd (hall y List.mem_cons_self ?_) hP
          rcases List.mem_cons.mp he with rfl | he
          · exact le_rfl
          · exact (hy e he).le

theorem mem_eraseKey (h : Separated lo hi l) {m x : α} (hm : m ∈ l) :
    x ∈ eraseKey lo m l ↔ x ∈ l ∧ x ≠ m := by
  rw [eraseKey, List.mem_filter]
  refine and_congr_right fun hx => ?_
  rw [decide_eq_true_iff, ne_eq, h.key_inj hx hm]

/-- Erasing the key of an element removes exactly this element. -/
theorem eraseKey_eq_erase [DecidableEq α] (h : Separated lo hi l) {m : α} (hm : m ∈ l) :
    eraseKey lo m l = l.erase m := by
  rw [h.nodup.erase_eq_filter, eraseKey]
  refine List.filter_congr fun x hx => ?_
  rw [Bool.eq_iff_iff, decide_eq_true_iff, bne_iff_ne, ne_eq, h.key_inj hx hm]

theorem emplace (h : Separated lo hi l) {m : α} (hm : lo m < hi m)
    (hapart : ∀ x ∈ l, Apart lo hi m x) : Separated lo hi (emplace lo m l) := by
  refine ⟨fun x hx => ?_, ?_⟩
  · rcases mem_emplace.mp hx with rfl | hx
    · exact hm
    · exact h.nonempty x hx
  · induction l with
    | nil => exact List.pairwise_singleton _ m
    | cons x l ih =>
        have hx : x ∈ x :: l := List.mem_cons_self
        rw [Intervals.emplace]
        split
        · rename_i hlt
          have hmx : hi m ≤ lo x := (hapart x hx).resolve_right fun hxm =>
            absurd (lt_trans (lt_of_lt_of_le (h.nonempty x hx) hxm) hlt) (lt_irrefl _)
          refine List.pairwise_cons.mpr ⟨fun y hy => ?_, h.sorted⟩
          rcases List.mem_cons.mp hy with rfl | hy
          · exact hmx
          · exact le_trans (le_trans hmx (h.nonempty x hx).le)
              ((List.pairwise_cons.mp h.sorted).1 y hy)
        · rename_i hlt
          have hxm : hi x ≤ lo m := (hapart x hx).resolve_left fun hmx =>
            hlt (lt_of_lt_of_le hm hmx)
          refine List.pairwise_cons.mpr ⟨fun y hy => ?_,
            ih h.of_cons fun y hy => hapart y (List.mem_cons_of_mem x hy)⟩
          rcases mem_emplace.mp hy with rfl | hy
          · exact hxm
          · exact (List.pairwise_cons.mp h.sorted).1 y hy

/-- Inserting pieces that are apart from the elements. -/
theorem emplaceAll {pieces : List α} (h : Separated lo hi l) (hpieces : ∀ m ∈ pieces, lo m < hi m)
    (hapart : pieces.Pairwise (Apart lo hi)) (hl : ∀ m ∈ pieces, ∀ x ∈ l, Apart lo hi m x) :
    Separated lo hi (pieces.foldl (fun l piece => Intervals.emplace lo piece l) l) ∧
      ∀ x, x ∈ pieces.foldl (fun l piece => Intervals.emplace lo piece l) l ↔ x ∈ l ∨ x ∈ pieces := by
  induction pieces generalizing l with
  | nil => exact ⟨h, by simp⟩
  | cons m pieces ih =>
      obtain ⟨hm, hapart⟩ := List.pairwise_cons.mp hapart
      have hsep := h.emplace (hpieces m List.mem_cons_self) (hl m List.mem_cons_self)
      obtain ⟨hsep', -⟩ := ih hsep (fun x hx => hpieces x (List.mem_cons_of_mem m hx)) hapart
        (by
          intro x hx y hy
          rcases mem_emplace.mp hy with rfl | hy
          · exact (hm x hx).symm
          · exact hl x (List.mem_cons_of_mem m hx) y hy)
      exact ⟨hsep', fun x => mem_foldl_emplace⟩

theorem mem_replaceEntry (h : Separated lo hi l) {entry : α} {pieces : List α} (hentry : entry ∈ l)
    (hpieces : PiecesOf lo hi entry pieces) :
    Separated lo hi (replaceEntry lo entry pieces l) ∧
      ∀ x, x ∈ replaceEntry lo entry pieces l ↔ (x ∈ l ∧ x ≠ entry) ∨ x ∈ pieces := by
  obtain ⟨hsep, hmem⟩ := (h.filter fun x => lo x ≠ lo entry).emplaceAll
    (fun m hm => (hpieces.within m hm).2.1) hpieces.apart (by
      intro m hm x hx
      obtain ⟨hx, hne⟩ := (h.mem_eraseKey hentry).mp hx
      exact (hpieces.apart_of hm (h.apart hx hentry hne)).symm)
  refine ⟨hsep, fun x => ?_⟩
  rw [← h.mem_eraseKey hentry]
  exact hmem x

/-- A piece of one element is no other element. -/
theorem ne_of_mem_pieces (h : Separated lo hi l) {a b m : α} {pieces : List α} (ha : a ∈ l)
    (hb : b ∈ l) (hne : a ≠ b) (hpieces : PiecesOf lo hi a pieces) (hm : m ∈ pieces) : m ≠ b := by
  rintro rfl
  obtain ⟨hlo, hlt, hhi⟩ := hpieces.within m hm
  exact (h.apart ha hb hne).not_covers ⟨hlo, lt_of_lt_of_le hlt hhi⟩ ⟨le_rfl, hlt⟩

/-- Replacing several elements by their pieces. The elements that are still to be replaced stay. -/
theorem mem_replaceEntries {pieces : α → List α} {entries : List α} (h : Separated lo hi l)
    (hentries : ∀ e ∈ entries, e ∈ l) (hnodup : entries.Nodup)
    (hpieces : ∀ e ∈ entries, PiecesOf lo hi e (pieces e)) :
    Separated lo hi (replaceEntries lo pieces entries l) ∧
      ∀ x, x ∈ replaceEntries lo pieces entries l ↔
        (x ∈ l ∧ x ∉ entries) ∨ ∃ e ∈ entries, x ∈ pieces e := by
  induction entries generalizing l with
  | nil => exact ⟨h, by simp [replaceEntries]⟩
  | cons e entries ih =>
      obtain ⟨he, hnodup⟩ := List.nodup_cons.mp hnodup
      have hel : e ∈ l := hentries e List.mem_cons_self
      have hsub : ∀ x ∈ entries, x ∈ l ∧ x ≠ e := fun x hx =>
        ⟨hentries x (List.mem_cons_of_mem e hx), fun heq => he (heq ▸ hx)⟩
      obtain ⟨hsep, hmem⟩ := h.mem_replaceEntry hel (hpieces e List.mem_cons_self)
      obtain ⟨hsep', hmem'⟩ := ih hsep (fun x hx => (hmem x).mpr (Or.inl (hsub x hx))) hnodup
        (fun x hx => hpieces x (List.mem_cons_of_mem e hx))
      refine ⟨hsep', fun x => ?_⟩
      -- a piece of `e` is none of the elements that are replaced later
      have hpiece : x ∈ pieces e → x ∉ entries := fun hx hxe =>
        h.ne_of_mem_pieces hel (hsub x hxe).1 (hsub x hxe).2.symm (hpieces e List.mem_cons_self) hx rfl
      rw [show replaceEntries lo pieces (e :: entries) l =
        replaceEntries lo pieces entries (replaceEntry lo e (pieces e) l) from rfl, hmem', hmem]
      simp only [List.mem_cons, not_or, exists_eq_or_imp]
      tauto

end Separated

end Intervals
