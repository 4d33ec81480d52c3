import Ilobilix.Memory.Vmm.View

/-!
# Mapping over what is there

`map` over the end of a mapping leaves an empty mapping behind, so a tree in which segments were laid
over each other is not one of `TreeWf`. Empty mappings are harmless as long as the others do not
overlap: `Loose` allows them, and is kept by every `map`. What a page belongs to afterwards is the new
mapping, if the page is in its range, and otherwise the part of the old mapping that `mapPieces` keeps.
-/

namespace Ilobilix.Vmm

open Lib Intervals

/-- Mappings that have a page in common are one mapping. -/
structure Loose (tree : List Mapping) : Prop where
  unique : ∀ e ∈ tree, ∀ f ∈ tree, ∀ p, Covers Mapping.startp Mapping.endp e p →
    Covers Mapping.startp Mapping.endp f p → e = f
  bounded : ∀ e ∈ tree, e.endp < 2 ^ 52

/-- The part of a mapping that a page belongs to after a `map` of other pages. -/
def Mapping.partAt (startp endp : ℕ) (e : Mapping) (p : ℕ) : Mapping :=
  if overlaps startp endp e then
    if p < startp then { e with endp := startp }
    else { e with
      startp := endp
      offsetp := (e.offsetp + (startp - e.startp) + (endp - startp)) % 2 ^ 64 }
  else e

section MapPieces

variable {startp endp p : ℕ} {e x : Mapping}

theorem headPages_eq : (if startp < e.startp then 0 else startp - e.startp) = startp - e.startp := by
  split <;> omega

/-- The part in front of the range, if there is one, and what is behind it, which may be empty. -/
theorem mapPieces_overlapping (hle : startp ≤ endp) (hend : endp < 2 ^ 52) (he : e.endp < 2 ^ 52)
    (hover : overlaps startp endp e = true) (hin : ¬(startp ≤ e.startp ∧ e.endp ≤ endp)) :
    mapPieces startp endp e =
      (if e.startp < startp then [{ e with endp := startp }] else []) ++
        [{ e with
          startp := min e.endp endp
          offsetp := (e.offsetp + (startp - e.startp) + (endp - startp)) % 2 ^ 64 }] := by
  obtain ⟨hlo, hhi⟩ := overlaps_iff.mp hover
  have htailp : (if e.endp ≤ endp then 0 else e.endp - endp) = e.endp - endp := by
    split <;> omega
  have htail : wsub e.endp (e.endp - endp) = min e.endp endp := by
    rw [wsub_of_le (by omega) (by omega)]
    omega
  have hpages : wsub endp startp = endp - startp := wsub_of_le hle (by omega)
  unfold mapPieces
  simp only [if_neg hin, headPages_eq, htailp, htail, hpages]
  rw [if_pos (show endp ≠ 0 by omega)]
  by_cases hhead : e.startp < startp
  · have hmod : (e.startp + (startp - e.startp)) % 2 ^ 64 = startp := by omega
    rw [if_pos hhead, if_pos (show startp - e.startp ≠ 0 by omega), hmod]
  · rw [if_neg hhead, if_neg (show ¬startp - e.startp ≠ 0 by omega)]

/-- What `mapPieces` keeps of a mapping, at a page. -/
theorem mem_mapPieces_covers (hle : startp ≤ endp) (hend : endp < 2 ^ 52) (he : e.endp < 2 ^ 52)
    (hover : overlaps startp endp e = true) :
    (x ∈ mapPieces startp endp e ∧ Covers Mapping.startp Mapping.endp x p) ↔
      (Covers Mapping.startp Mapping.endp e p ∧ ¬(startp ≤ p ∧ p < endp) ∧
        x = e.partAt startp endp p) := by
  obtain ⟨hlo, hhi⟩ := overlaps_iff.mp hover
  rw [Mapping.partAt, if_pos hover]
  by_cases hin : startp ≤ e.startp ∧ e.endp ≤ endp
  · rw [mapPieces, if_pos hin]
    refine iff_of_false (fun h => absurd h.1 List.not_mem_nil) ?_
    rintro ⟨⟨hp, hp'⟩, hout, -⟩
    exact hout ⟨hin.1.trans hp, lt_of_lt_of_le hp' hin.2⟩
  · rw [mapPieces_overlapping hle hend he hover hin, List.mem_append, List.mem_singleton]
    constructor
    · rintro ⟨hx | rfl, hp⟩
      · -- in front of the range
        split at hx
        · rw [List.mem_singleton] at hx
          subst hx
          obtain ⟨hp, hp'⟩ := hp
          simp only at hp hp'
          rw [if_pos hp']
          exact ⟨⟨hp, hp'.trans hlo⟩, by omega, rfl⟩
        · cases hx
      · obtain ⟨hp, hp'⟩ := hp
        simp only at hp hp'
        have hmin : min e.endp endp = endp := by omega
        rw [hmin] at hp ⊢
        rw [if_neg (by omega)]
        exact ⟨⟨by omega, hp'⟩, by omega, rfl⟩
    · rintro ⟨⟨hp, hp'⟩, hout, rfl⟩
      by_cases hpstart : p < startp
      · rw [if_pos hpstart, if_pos (lt_of_le_of_lt hp hpstart)]
        exact ⟨Or.inl List.mem_cons_self, hp, hpstart⟩
      · have hmin : min e.endp endp = endp := by omega
        have hpend : endp ≤ p := by omega
        rw [if_neg hpstart, hmin]
        exact ⟨Or.inr rfl, hpend, hp'⟩

/-- A mapping that covers a page covers its own first page. -/
theorem covers_startp (h : Covers Mapping.startp Mapping.endp e p) :
    Covers Mapping.startp Mapping.endp e e.startp :=
  ⟨le_rfl, lt_of_le_of_lt h.1 h.2⟩

/-- The tree after a `map` that succeeds. -/
def mapped (startp endp : ℕ) (m : Mapping) (tree : List Mapping) : List Mapping :=
  emplace Mapping.startp m (replaceEntries Mapping.startp (mapPieces startp endp)
    (tree.filter (overlaps startp endp)) tree)

variable {tree : List Mapping} {m : Mapping}

/-- What `map` keeps of the mappings, at a page. -/
theorem Loose.mem_replaceEntries (h : Loose tree) (hle : startp ≤ endp) (hend : endp < 2 ^ 52) :
    (x ∈ replaceEntries Mapping.startp (mapPieces startp endp)
        (tree.filter (overlaps startp endp)) tree ∧ Covers Mapping.startp Mapping.endp x p) ↔
      ¬(startp ≤ p ∧ p < endp) ∧ ∃ e ∈ tree, Covers Mapping.startp Mapping.endp e p ∧
        x = e.partAt startp endp p := by
  constructor
  · rintro ⟨hx, hp⟩
    rcases mem_replaceEntries_cases hx with ⟨hx, hnot⟩ | ⟨e, he, hx⟩
    · have hover : ¬overlaps startp endp x = true := fun hover =>
        hnot (List.mem_filter.mpr ⟨hx, hover⟩)
      refine ⟨fun hin => ?_, x, hx, hp, (if_neg hover).symm⟩
      exact hover (overlaps_iff.mpr ⟨lt_of_le_of_lt hin.1 hp.2, lt_of_le_of_lt hp.1 hin.2⟩)
    · obtain ⟨he, hover⟩ := List.mem_filter.mp he
      obtain ⟨hpe, hout, heq⟩ :=
        (mem_mapPieces_covers hle hend (h.bounded e he) hover).mp ⟨hx, hp⟩
      exact ⟨hout, e, he, hpe, heq⟩
  · rintro ⟨hout, e, he, hp, hx⟩
    by_cases hover : overlaps startp endp e = true
    · obtain ⟨hmem, hcov⟩ :=
        (mem_mapPieces_covers hle hend (h.bounded e he) hover).mpr ⟨hp, hout, hx⟩
      refine ⟨mem_replaceEntries_of_piece (List.mem_filter.mpr ⟨he, hover⟩) hmem ?_, hcov⟩
      intro f hf hkey
      obtain ⟨hf, hfover⟩ := List.mem_filter.mp hf
      obtain ⟨hlo, hhi⟩ := overlaps_iff.mp hfover
      rw [hx, Mapping.partAt, if_pos hover] at hkey
      by_cases hpstart : p < startp
      · rw [if_pos hpstart] at hkey
        simp only at hkey
        have hcovf : Covers Mapping.startp Mapping.endp f e.startp :=
          ⟨hkey.le, (lt_of_le_of_lt hp.1 hpstart).trans hlo⟩
        exact h.unique f hf e he _ hcovf (covers_startp hp)
      · rw [if_neg hpstart] at hkey
        exact absurd hkey hhi.ne
    · rw [Mapping.partAt, if_neg hover] at hx
      subst hx
      refine ⟨mem_replaceEntries_of_ne he fun f hf hkey => hover ?_, hp⟩
      obtain ⟨hf, hfover⟩ := List.mem_filter.mp hf
      obtain ⟨hlo, hhi⟩ := overlaps_iff.mp hfover
      have hx := covers_startp hp
      by_cases hne : f.startp < f.endp
      · -- two mappings with one first page
        rw [← h.unique f hf x he _ ⟨le_rfl, hne⟩ (hkey ▸ hx)]
        exact hfover
      · -- an empty mapping where this one begins
        refine overlaps_iff.mpr ⟨?_, hkey ▸ hhi⟩
        have := hx.2
        omega

/-- Nothing overlaps a range behind the end of every mapping. -/
theorem mapped_of_forall (h : ∀ e ∈ tree, e.endp ≤ startp) :
    mapped startp endp m tree = emplace Mapping.startp m tree := by
  have hnone : tree.filter (overlaps startp endp) = [] := by
    rw [List.filter_eq_nil_iff]
    intro e he hover
    exact absurd (overlaps_iff.mp hover).1 (not_lt.mpr (h e he))
  rw [mapped, hnone]
  rfl

/-- What a page belongs to after a `map`, of a range that may be empty or begin on the last page. -/
theorem Loose.mem_mapped (h : Loose tree) (hle : startp ≤ endp ∨ startp = 2 ^ 52 - 1)
    (hend : endp < 2 ^ 52) (hstartp : m.startp = startp) (hendp : m.endp = endp) :
    (x ∈ mapped startp endp m tree ∧ Covers Mapping.startp Mapping.endp x p) ↔
      x = m ∧ (startp ≤ p ∧ p < endp) ∨
        ¬(startp ≤ p ∧ p < endp) ∧ ∃ e ∈ tree, Covers Mapping.startp Mapping.endp e p ∧
          x = e.partAt startp endp p := by
  have hself : x = m ∧ Covers Mapping.startp Mapping.endp x p ↔
      x = m ∧ (startp ≤ p ∧ p < endp) := by
    refine and_congr_right fun hx => ?_
    rw [hx, ← hstartp, ← hendp]
    rfl
  rcases hle with hle | hlast
  · rw [← h.mem_replaceEntries hle hend, mapped, mem_emplace, or_and_right, hself]
  · have hbehind : ∀ e ∈ tree, e.endp ≤ startp := fun e he => by
      have := h.bounded e he
      omega
    have hnone : ¬(startp ≤ p ∧ p < endp) := by omega
    rw [mapped_of_forall hbehind, mem_emplace, or_and_right, hself, and_iff_right hnone]
    refine or_congr_right ⟨fun ⟨hx, hp⟩ => ⟨x, hx, hp, ?_⟩, fun ⟨e, he, hp, hx⟩ => ?_⟩
    · rw [Mapping.partAt, if_neg]
      exact fun hover => absurd (overlaps_iff.mp hover).1 (not_lt.mpr (hbehind x hx))
    · rw [Mapping.partAt, if_neg] at hx
      · exact hx ▸ ⟨he, hp⟩
      · exact fun hover => absurd (overlaps_iff.mp hover).1 (not_lt.mpr (hbehind e he))

theorem endp_lt_of_mem_mapPieces (hstart : startp < 2 ^ 52) (he : e.endp < 2 ^ 52)
    (hx : x ∈ mapPieces startp endp e) : x.endp < 2 ^ 52 := by
  unfold mapPieces at hx
  simp only [headPages_eq] at hx
  split at hx
  · cases hx
  · rw [List.mem_append] at hx
    rcases hx with hx | hx
    · split at hx
      · rw [List.mem_singleton] at hx
        subst hx
        simp only
        omega
      · cases hx
    · split at hx
      · rw [List.mem_singleton] at hx
        subst hx
        exact he
      · cases hx

/-- Every mapping ends below the last page of the 64-bit addresses. -/
theorem endp_lt_of_mem_mapped (htree : ∀ e ∈ tree, e.endp < 2 ^ 52) (hstart : startp < 2 ^ 52)
    (hm : m.endp < 2 ^ 52) (hx : x ∈ mapped startp endp m tree) : x.endp < 2 ^ 52 := by
  rw [mapped, mem_emplace] at hx
  rcases hx with rfl | hx
  · exact hm
  · rcases mem_of_mem_replaceEntries hx with hx | ⟨e, he, hx⟩
    · exact htree x hx
    · exact endp_lt_of_mem_mapPieces hstart (htree e (List.mem_filter.mp he).1) hx

theorem obj_of_mem_mapped (hx : x ∈ mapped startp endp m tree) :
    x.obj = m.obj ∨ ∃ e ∈ tree, x.obj = e.obj := by
  rw [mapped, mem_emplace] at hx
  rcases hx with rfl | hx
  · exact Or.inl rfl
  · rcases mem_of_mem_replaceEntries hx with hx | ⟨e, he, hx⟩
    · exact Or.inr ⟨x, hx, rfl⟩
    · refine Or.inr ⟨e, (List.mem_filter.mp he).1, ?_⟩
      unfold mapPieces at hx
      simp only [headPages_eq] at hx
      split at hx
      · cases hx
      · rw [List.mem_append] at hx
        rcases hx with hx | hx
        all_goals
          split at hx
          · rw [List.mem_singleton] at hx
            rw [hx]
          · cases hx

theorem mem_mapped_self : m ∈ mapped startp endp m tree := mem_emplace.mpr (Or.inl rfl)

theorem Loose.mapped (h : Loose tree) (hle : startp ≤ endp ∨ startp = 2 ^ 52 - 1)
    (hend : endp < 2 ^ 52) (hstartp : m.startp = startp) (hendp : m.endp = endp) :
    Loose (mapped startp endp m tree) := by
  refine ⟨fun x hx y hy p hxp hyp => ?_, fun x hx => ?_⟩
  · rcases (h.mem_mapped hle hend hstartp hendp).mp ⟨hx, hxp⟩ with
      ⟨rfl, hin⟩ | ⟨hout, e, he, hpe, rfl⟩
    · rcases (h.mem_mapped hle hend hstartp hendp).mp ⟨hy, hyp⟩ with ⟨rfl, -⟩ | ⟨hout, -⟩
      · rfl
      · exact absurd hin hout
    · rcases (h.mem_mapped hle hend hstartp hendp).mp ⟨hy, hyp⟩ with ⟨-, hin⟩ | ⟨-, f, hf, hpf, rfl⟩
      · exact absurd hin hout
      · rw [h.unique e he f hf p hpe hpf]
  · exact endp_lt_of_mem_mapped h.bounded (by omega) (hendp ▸ hend) hx

theorem Mapping.obj_partAt (e : Mapping) : (e.partAt startp endp p).obj = e.obj := by
  unfold Mapping.partAt
  split
  · split <;> rfl
  · rfl

/-- A page of a loose tree belongs to the mapping that covers it. -/
theorem Loose.view_eq (h : Loose tree) (he : e ∈ tree)
    (hp : Covers Mapping.startp Mapping.endp e p) : view tree p = some (e.cell p) := by
  unfold view
  cases hfind : tree.find? fun m => m.startp ≤ p && p < m.endp with
  | none =>
      have := List.find?_eq_none.mp hfind e he
      simp [hp.1, hp.2] at this
  | some f =>
      have hcov := List.find?_some hfind
      simp only [Bool.and_eq_true, decide_eq_true_eq] at hcov
      rw [h.unique f (List.mem_of_find?_eq_some hfind) e he p hcov hp]
      rfl

theorem view_eq_none_of_forall (h : ∀ e ∈ tree, ¬Covers Mapping.startp Mapping.endp e p) :
    view tree p = none := by
  unfold view
  rw [Option.map_eq_none_iff, List.find?_eq_none]
  intro e he hcov
  simp only [Bool.and_eq_true, decide_eq_true_eq] at hcov
  exact h e he hcov

end MapPieces

end Ilobilix.Vmm
