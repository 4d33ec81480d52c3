import Mathlib.Data.List.Basic

/-!
# Pair coding

A table gives each code the codes that it stands for: a terminal code stands for itself, and the
other codes in use stand for a pair of codes. `Denotes` says what a string of codes stands for in
the end. Replacing a pair by the code that stands for it leaves that unchanged, and so does a new
entry in the table.
-/

universe u

variable {α : Type u} {rules rules' : α → List α}

/-- The string of terminal codes that a string of codes stands for. -/
inductive Denotes (rules : α → List α) : List α → List α → Prop where
  | nil : Denotes rules [] []
  | terminal {c : α} {l t : List α} (hc : rules c = [c]) (hl : Denotes rules l t) :
      Denotes rules (c :: l) (c :: t)
  | rule {c : α} {l t u : List α} (hself : rules c ≠ [c]) (hc : rules c ≠ [])
      (hu : Denotes rules (rules c) u) (hl : Denotes rules l t) : Denotes rules (c :: l) (u ++ t)

namespace Denotes

theorem append {l l' t t' : List α} (h : Denotes rules l t) (h' : Denotes rules l' t') :
    Denotes rules (l ++ l') (t ++ t') := by
  induction h with
  | nil => exact h'
  | terminal hc _ ih => exact .terminal hc ih
  | rule hself hc hu _ _ ih =>
      rw [List.append_assoc]
      exact .rule hself hc hu ih

/-- A string of codes stands for what its first code stands for and what the others do. -/
theorem cons_inv {c : α} {l t : List α} (h : Denotes rules (c :: l) t) :
    ∃ u t', t = u ++ t' ∧ Denotes rules [c] u ∧ Denotes rules l t' := by
  cases h with
  | terminal hc hl => exact ⟨[c], _, rfl, .terminal hc .nil, hl⟩
  | @rule _ _ t' u hself hc hu hl =>
      refine ⟨u, t', rfl, ?_, hl⟩
      rw [← List.append_nil u]
      exact .rule hself hc hu .nil

theorem nil_inv {t : List α} (h : Denotes rules [] t) : t = [] := by
  cases h
  rfl

theorem cons {c : α} {l u t : List α} (hc : Denotes rules [c] u) (hl : Denotes rules l t) :
    Denotes rules (c :: l) (u ++ t) := hc.append hl

/-- Every code of the string is in use. -/
theorem ne_nil {l t : List α} (h : Denotes rules l t) : ∀ c ∈ l, rules c ≠ [] := by
  induction h with
  | nil => exact nofun
  | terminal hc _ ih => exact List.forall_mem_cons.mpr ⟨hc ▸ List.cons_ne_nil _ _, ih⟩
  | rule _ hc _ _ _ ih => exact List.forall_mem_cons.mpr ⟨hc, ih⟩

/-- Every code of the string stands for something. -/
theorem exists_of_mem {l t : List α} (h : Denotes rules l t) {c : α} (hc : c ∈ l) :
    ∃ u, Denotes rules [c] u := by
  induction l generalizing t with
  | nil => cases hc
  | cons d l ih =>
      obtain ⟨u, t', -, hd, hl⟩ := h.cons_inv
      rcases List.mem_cons.mp hc with rfl | hc
      · exact ⟨u, hd⟩
      · exact ih hl hc

theorem unique {l t t' : List α} (h : Denotes rules l t) (h' : Denotes rules l t') : t = t' := by
  induction h generalizing t' with
  | nil => exact h'.nil_inv.symm
  | terminal hc _ ih =>
      cases h' with
      | terminal _ hl => rw [ih hl]
      | rule hself => exact absurd hc hself
  | rule hself _ _ _ ihu ih =>
      cases h' with
      | terminal hc => exact absurd hc hself
      | rule _ _ hu hl => rw [ihu hu, ih hl]

/-- With a text for each code, a string of codes stands for the texts of its codes. -/
theorem eq_flatMap {text : α → List α} {l t : List α} (h : Denotes rules l t)
    (htext : ∀ c ∈ l, Denotes rules [c] (text c)) : t = l.flatMap text := by
  induction l generalizing t with
  | nil => exact h.nil_inv
  | cons c l ih =>
      obtain ⟨u, t', rfl, hc, hl⟩ := h.cons_inv
      obtain rfl := hc.unique (htext c (List.mem_cons_self ..))
      rw [List.flatMap_cons, ih hl fun d hd => htext d (List.mem_cons_of_mem _ hd)]

/-- A table with more entries. -/
theorem mono (hrules : ∀ c, rules c ≠ [] → rules' c = rules c) {l t : List α}
    (h : Denotes rules l t) : Denotes rules' l t := by
  induction h with
  | nil => exact .nil
  | @terminal c _ _ hc _ ih =>
      have hne : rules c ≠ [] := hc ▸ List.cons_ne_nil _ _
      exact .terminal ((hrules c hne).trans hc) ih
  | @rule c _ _ _ hself hc _ _ ihu ih =>
      have hsame := hrules c hc
      exact .rule (hsame ▸ hself) (hsame ▸ hc) (hsame ▸ ihu) ih

/-- Terminal codes stand for themselves. -/
theorem of_terminal {l : List α} (h : ∀ c ∈ l, rules c = [c]) : Denotes rules l l := by
  induction l with
  | nil => exact .nil
  | cons c l ih =>
      exact .terminal (h c (List.mem_cons_self ..)) (ih fun d hd => h d (List.mem_cons_of_mem _ hd))

/-- The codes in the text are terminal. -/
theorem terminal_of_mem {l t : List α} (h : Denotes rules l t) : ∀ c ∈ t, rules c = [c] := by
  induction h with
  | nil => exact nofun
  | terminal hc _ ih => exact List.forall_mem_cons.mpr ⟨hc, ih⟩
  | rule _ _ _ _ ihu ih => exact List.forall_mem_append.mpr ⟨ihu, ih⟩

/-- The code of a pair stands for what its two codes do. -/
theorem pair {a b c : α} {u v : List α} (hrule : rules c = [a, b]) (ha : Denotes rules [a] u)
    (hb : Denotes rules [b] v) : Denotes rules [c] (u ++ v) := by
  have hc : Denotes rules (rules c) (u ++ v) := hrule.symm ▸ ha.cons hb
  rw [← List.append_nil (u ++ v)]
  exact .rule (by simp [hrule]) (by simp [hrule]) hc .nil

/-- What a code stands for is what its entry stands for. -/
theorem entry {c : α} {t : List α} (h : Denotes rules [c] t) : Denotes rules (rules c) t := by
  cases h with
  | terminal hc hl =>
      rw [hc]
      exact .terminal hc hl
  | rule _ _ hu hl =>
      rw [hl.nil_inv, List.append_nil]
      exact hu

theorem mem_of_terminal {d : α} (hd : rules d = [d]) {l t : List α} (h : Denotes rules l t)
    (hl : d ∈ l) : d ∈ t := by
  induction h with
  | nil => exact hl
  | terminal _ _ ih =>
      rcases List.mem_cons.mp hl with rfl | hl
      · exact List.mem_cons_self ..
      · exact List.mem_cons_of_mem _ (ih hl)
  | rule hself _ _ _ _ ih =>
      rcases List.mem_cons.mp hl with rfl | hl
      · exact absurd hd hself
      · exact List.mem_append_right _ (ih hl)

/-- A code that is in no other entry comes from itself only. -/
theorem notMem {d : α} (hd : ∀ c, d ∈ rules c → c = d) {l t : List α} (h : Denotes rules l t)
    (hl : d ∉ l) : d ∉ t := by
  induction h with
  | nil => exact hl
  | terminal _ _ ih =>
      rw [List.mem_cons, not_or] at hl ⊢
      exact ⟨hl.1, ih hl.2⟩
  | @rule c _ _ _ _ _ _ _ ihu ih =>
      rw [List.mem_cons, not_or] at hl
      rw [List.mem_append, not_or]
      exact ⟨ihu fun hmem => hl.1 (hd c hmem).symm, ih hl.2⟩

theorem length_le {l t : List α} (h : Denotes rules l t) : l.length ≤ t.length := by
  induction h with
  | nil => exact Nat.le_refl _
  | terminal _ _ ih => exact Nat.succ_le_succ ih
  | rule _ hc _ _ ihu ih =>
      have hpos := List.length_pos_of_ne_nil hc
      rw [List.length_cons, List.length_append]
      omega

end Denotes

/-! ## Replacing a pair -/

section Replace

variable [DecidableEq α]

/-- From the left, every pair `a b` becomes the code `c`. -/
def replacePair (a b c : α) : List α → List α
  | x :: y :: l => if x = a ∧ y = b then c :: replacePair a b c l else x :: replacePair a b c (y :: l)
  | l => l

theorem Denotes.replace {a b c : α} (hrule : rules c = [a, b]) {l t : List α}
    (h : Denotes rules l t) : Denotes rules (replacePair a b c l) t := by
  induction l using replacePair.induct a b generalizing t with
  | case1 x y l hxy ih =>
      obtain ⟨u, t', rfl, hx, hyl⟩ := h.cons_inv
      obtain ⟨v, t'', rfl, hy, hl⟩ := hyl.cons_inv
      rw [replacePair, if_pos hxy, ← List.append_assoc]
      exact (Denotes.pair hrule (hxy.1 ▸ hx) (hxy.2 ▸ hy)).cons (ih hl)
  | case2 x y l hxy ih =>
      obtain ⟨u, t', rfl, hx, hyl⟩ := h.cons_inv
      rw [replacePair, if_neg hxy]
      exact hx.cons (ih hyl)
  | case3 l hl =>
      rw [replacePair.eq_2 _ _ _ _ hl]
      exact h

end Replace
