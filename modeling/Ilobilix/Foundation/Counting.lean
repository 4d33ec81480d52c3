import Mathlib.Data.Finset.Card
import Mathlib.Data.Finset.Dedup
import Mathlib.Data.Finset.Insert
import Mathlib.Logic.Function.Basic

/-!
# Counting the members of a system

A concurrent system has a place for each of its members, and there may be infinitely many members
that never run. `HasCount place P n` says that exactly `n` members are at a place that satisfies
`P`. A step moves one member, and the lemmas `HasCount.enter`, `HasCount.leave` and `HasCount.stay`
say what that does to the count.

`Owns flag place P` is the invariant of a lock: the flag is set while a member is at a place that
needs the lock, and at most one member is.
-/

/-- Exactly `n` members are at a place that satisfies `P`. -/
def HasCount {α β : Type*} (place : α → β) (P : β → Prop) (n : ℕ) : Prop :=
  ∃ s : Finset α, (∀ a, a ∈ s ↔ P (place a)) ∧ s.card = n

namespace HasCount

variable {α β : Type*} {place : α → β} {P : β → Prop} {n m : ℕ} {a : α} {b : β}

theorem zero (h : ∀ a, ¬P (place a)) : HasCount place P 0 :=
  ⟨∅, fun a => by simp [h a], rfl⟩

theorem pos (h : HasCount place P n) (ha : P (place a)) : 0 < n := by
  obtain ⟨s, hs, rfl⟩ := h
  exact Finset.card_pos.2 ⟨a, (hs a).2 ha⟩

theorem exists_of_pos (h : HasCount place P n) (hn : 0 < n) : ∃ a, P (place a) := by
  obtain ⟨s, hs, rfl⟩ := h
  obtain ⟨a, ha⟩ := Finset.card_pos.1 hn
  exact ⟨a, (hs a).1 ha⟩

/-- A list without repetitions that holds the members at the counted places. -/
theorem eq_length {l : List α} (h : HasCount place P n) (hnodup : l.Nodup)
    (hl : ∀ a, a ∈ l ↔ P (place a)) : n = l.length := by
  classical
  obtain ⟨s, hs, rfl⟩ := h
  have hsl : s = l.toFinset := Finset.ext fun a => by rw [hs a, List.mem_toFinset, hl a]
  rw [hsl, List.toFinset_card_of_nodup hnodup]

variable [DecidableEq α]

/-- A member comes to a counted place. -/
theorem enter (h : HasCount place P n) (hold : ¬P (place a)) (hnew : P b) :
    HasCount (Function.update place a b) P (n + 1) := by
  obtain ⟨s, hs, rfl⟩ := h
  refine ⟨insert a s, fun u => ?_, Finset.card_insert_of_notMem fun ha => hold ((hs a).1 ha)⟩
  by_cases hu : u = a
  · subst hu
    simp [hnew]
  · simp [hu, hs u]

/-- A member leaves a counted place. -/
theorem leave (h : HasCount place P n) (hold : P (place a)) (hnew : ¬P b) :
    HasCount (Function.update place a b) P (n - 1) := by
  obtain ⟨s, hs, rfl⟩ := h
  refine ⟨s.erase a, fun u => ?_, Finset.card_erase_of_mem ((hs a).2 hold)⟩
  by_cases hu : u = a
  · subst hu
    simp [hnew]
  · simp [hu, hs u]

/-- A member moves between two places that are both counted or both not. -/
theorem stay (h : HasCount place P n) (hP : P b ↔ P (place a)) :
    HasCount (Function.update place a b) P n := by
  obtain ⟨s, hs, rfl⟩ := h
  refine ⟨s, fun u => ?_, rfl⟩
  by_cases hu : u = a
  · subst hu
    rw [Function.update_self, hs, hP]
  · rw [Function.update_of_ne hu, hs]

end HasCount

/-- The flag is set while a member is at a place that satisfies `P`, and at most one member is. -/
structure Owns {α β : Type*} (flag : Bool) (place : α → β) (P : β → Prop) : Prop where
  held : ∀ a, P (place a) → flag = true
  unique : ∀ a b, P (place a) → P (place b) → a = b

namespace Owns

variable {α β : Type*} [DecidableEq α] {flag : Bool} {place : α → β} {P : β → Prop} {a : α} {b : β}

/-- A member sets a flag that was not set. -/
theorem acquire (h : Owns flag place P) (hfree : flag = false) :
    Owns true (Function.update place a b) P := by
  have hnone : ∀ u, ¬P (place u) := fun u hu => by
    have := h.held u hu
    rw [hfree] at this
    cases this
  have hat : ∀ u, P (Function.update place a b u) → u = a := fun u hu => by
    by_contra hne
    rw [Function.update_of_ne hne] at hu
    exact hnone u hu
  exact ⟨fun _ _ => rfl, fun u v hu hv => (hat u hu).trans (hat v hv).symm⟩

/-- The owner clears the flag. -/
theorem release (h : Owns flag place P) (hold : P (place a)) (hnew : ¬P b) :
    Owns false (Function.update place a b) P := by
  have hnone : ∀ u, ¬P (Function.update place a b u) := fun u hu => by
    by_cases hne : u = a
    · subst hne
      rw [Function.update_self] at hu
      exact hnew hu
    · rw [Function.update_of_ne hne] at hu
      exact hne (h.unique u a hu hold)
  exact ⟨fun u hu => absurd hu (hnone u), fun u _ hu => absurd hu (hnone u)⟩

/-- A member that does not come to own the lock. -/
theorem stay (h : Owns flag place P) (hP : P b → P (place a)) :
    Owns flag (Function.update place a b) P := by
  have hold : ∀ u, P (Function.update place a b u) → P (place u) := fun u hu => by
    by_cases hne : u = a
    · subst hne
      rw [Function.update_self] at hu
      exact hP hu
    · rwa [Function.update_of_ne hne] at hu
  exact ⟨fun u hu => h.held u (hold u hu), fun u v hu hv => h.unique u v (hold u hu) (hold v hv)⟩

end Owns
