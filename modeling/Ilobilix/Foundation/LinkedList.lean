import Mathlib.Data.List.Induction
import Mathlib.Data.List.Nodup

/-!
# Doubly linked lists in memory

`Linked next prev l` says that the link fields `next` and `prev` of a memory spell out the list `l`:
the predecessor of each element is the last element before it and its successor is the first element
after it. The two edits of an intrusive list are `Linked.insert` and `Linked.remove`; each of them
asks only for the values of the link fields at the elements of the list, so that it applies to any
memory layout the fields are read from.

`Chained next l` is the same for a list with one link field, whose last link is null.
-/

/-- The link fields at the elements of `l` spell out `l`, first to last. -/
def Linked {α : Type*} (next prev : α → Option α) (l : List α) : Prop :=
  ∀ l₁ a l₂, l = l₁ ++ a :: l₂ → prev a = l₁.getLast? ∧ next a = l₂.head?

namespace Linked

variable {α : Type*} {next prev next' prev' : α → Option α}

theorem nil : Linked next prev [] := by
  intro l₁ a l₂ h
  simp at h

theorem next_eq {l₁ l₂ : List α} {a : α} (h : Linked next prev (l₁ ++ a :: l₂)) :
    next a = l₂.head? := (h l₁ a l₂ rfl).2

theorem prev_eq {l₁ l₂ : List α} {a : α} (h : Linked next prev (l₁ ++ a :: l₂)) :
    prev a = l₁.getLast? := (h l₁ a l₂ rfl).1

/-- Only the fields at the elements matter. -/
theorem congr {l : List α} (h : Linked next prev l) (hn : ∀ a ∈ l, next' a = next a)
    (hp : ∀ a ∈ l, prev' a = prev a) : Linked next' prev' l := by
  intro l₁ a l₂ hl
  have ha : a ∈ l := by simp [hl]
  rw [hn a ha, hp a ha]
  exact h l₁ a l₂ hl

/-- The successor and predecessor fields are mutual inverses along the list. -/
theorem next_iff_prev {l : List α} (h : Linked next prev l) {a b : α} (ha : a ∈ l)
    (hb : b ∈ l) (hnd : l.Nodup) : next a = some b ↔ prev b = some a := by
  obtain ⟨l₁, l₂, rfl⟩ := List.append_of_mem ha
  rw [h.next_eq]
  constructor
  · intro hab
    obtain ⟨l₃, rfl⟩ : ∃ l₃, l₂ = b :: l₃ := by
      cases l₂ with
      | nil => simp at hab
      | cons c l₃ => exact ⟨l₃, by simpa using hab⟩
    have hprev := (h (l₁ ++ [a]) b l₃ (by simp)).1
    simpa using hprev
  · intro hba
    obtain ⟨m₁, m₂, hm⟩ := List.append_of_mem hb
    have hprev := (h m₁ b m₂ hm).1
    rw [hba] at hprev
    obtain ⟨m₃, rfl⟩ : ∃ m₃, m₁ = m₃ ++ [a] := by
      obtain ⟨m₃, hm₃⟩ := List.getLast?_eq_some_iff.mp hprev.symm
      exact ⟨m₃, hm₃⟩
    -- both splittings are at the unique occurrence of `a`
    have hm' : l₁ ++ a :: l₂ = m₃ ++ a :: (b :: m₂) := by simpa using hm
    have hl₂ : l₂ = b :: m₂ := by
      obtain ⟨-, hnd₂, hdisj⟩ := List.nodup_append.mp hnd
      rcases List.append_eq_append_iff.mp hm' with ⟨c, rfl, hc⟩ | ⟨c, rfl, hc⟩
      · cases c with
        | nil => simpa using hc
        | cons x c =>
            simp only [List.cons_append, List.cons.injEq] at hc
            exact absurd (by simp [hc.2] : a ∈ l₂) (by simpa using (List.nodup_cons.mp hnd₂).1)
      · cases c with
        | nil => simpa using hc.symm
        | cons x c =>
            simp only [List.cons_append, List.cons.injEq] at hc
            exact absurd rfl (hdisj a (by simp [hc.1]) a (by simp))
    simp [hl₂]

/-- In a list without repetitions, an element with another one after it is not the last. -/
theorem getLast?_ne_of_nodup {l₁ l₂ : List α} {a b : α} (hnd : (l₁ ++ a :: (l₂ ++ [b])).Nodup) :
    (l₁ ++ a :: (l₂ ++ [b])).getLast? ≠ some a := by
  have hlast : (l₁ ++ a :: (l₂ ++ [b])).getLast? = some b := by
    rw [← List.cons_append, ← List.append_assoc, List.getLast?_concat]
  rw [hlast]
  rintro hba
  obtain rfl := Option.some.inj hba
  simpa using (List.nodup_append.mp hnd).2.1

/-- Linking a fresh element between `l₁` and `l₂`: the fields of the new element and of its two
neighbours are written, all others keep their value. -/
theorem insert {l₁ l₂ : List α} {z : α} (h : Linked next prev (l₁ ++ l₂))
    (hnd : (l₁ ++ l₂).Nodup) (hnz : next' z = l₂.head?) (hpz : prev' z = l₁.getLast?)
    (hn : ∀ a ∈ l₁ ++ l₂, l₁.getLast? ≠ some a → next' a = next a)
    (hnl : ∀ a, l₁.getLast? = some a → next' a = some z)
    (hp : ∀ a ∈ l₁ ++ l₂, l₂.head? ≠ some a → prev' a = prev a)
    (hpl : ∀ a, l₂.head? = some a → prev' a = some z) :
    Linked next' prev' (l₁ ++ z :: l₂) := by
  intro m₁ a m₂ hm
  obtain ⟨hnd₁, hnd₂, hdisj⟩ := List.nodup_append.mp hnd
  rcases List.append_eq_append_iff.mp hm with ⟨c, rfl, hc⟩ | ⟨c, rfl, hc⟩
  · cases c with
    | nil =>
        obtain ⟨rfl, rfl⟩ : z = a ∧ l₂ = m₂ := by simpa using hc
        exact ⟨by simpa using hpz, hnz⟩
    | cons x c =>
        obtain ⟨rfl, rfl⟩ : z = x ∧ l₂ = c ++ a :: m₂ := by simpa using hc
        have hold := h (l₁ ++ c) a m₂ (by simp)
        have hmem : a ∈ l₁ ++ (c ++ a :: m₂) := by simp
        have ha₁ : l₁.getLast? ≠ some a := fun hl =>
          absurd rfl (hdisj a (List.mem_of_getLast? hl) a (by simp))
        refine ⟨?_, by rw [hn a hmem ha₁, hold.2]⟩
        cases c with
        | nil => simpa using hpl a (by simp)
        | cons y c =>
            have hay : some y ≠ some a := by
              rintro hya
              obtain rfl := Option.some.inj hya
              simp at hnd₂
            rw [hp a hmem (by simpa using hay), hold.1]
            simp [List.getLast?_append, List.getLast?_cons]
  · cases c with
    | nil =>
        obtain ⟨rfl, rfl⟩ : a = z ∧ m₂ = l₂ := by simpa using hc
        exact ⟨by simpa using hpz, hnz⟩
    | cons x c =>
        obtain ⟨rfl, rfl⟩ : a = x ∧ m₂ = c ++ z :: l₂ := by simpa using hc
        have hold := h m₁ a (c ++ l₂) (by simp)
        have hmem : a ∈ (m₁ ++ a :: c) ++ l₂ := by simp
        have ha₂ : l₂.head? ≠ some a := fun hl =>
          absurd rfl (hdisj a (by simp) a (List.mem_of_head? hl))
        refine ⟨by rw [hp a hmem ha₂, hold.1], ?_⟩
        cases c using List.reverseRecOn with
        | nil => simpa using hnl a (by simp)
        | append_singleton c y _ =>
            rw [hn a hmem (getLast?_ne_of_nodup hnd₁), hold.2]
            cases c <;> simp

/-- Unlinking the elements of `m`: the fields of the two neighbours are written, the others keep
their value. -/
theorem removeRange {l₁ m l₂ : List α} (h : Linked next prev (l₁ ++ (m ++ l₂)))
    (hnd : (l₁ ++ (m ++ l₂)).Nodup)
    (hn : ∀ a ∈ l₁ ++ l₂, l₁.getLast? ≠ some a → next' a = next a)
    (hnl : ∀ a, l₁.getLast? = some a → next' a = l₂.head?)
    (hp : ∀ a ∈ l₁ ++ l₂, l₂.head? ≠ some a → prev' a = prev a)
    (hpl : ∀ a, l₂.head? = some a → prev' a = l₁.getLast?) :
    Linked next' prev' (l₁ ++ l₂) := by
  intro m₁ a m₂ hm
  obtain ⟨hnd₁, hnd₂, hdisj⟩ := List.nodup_append.mp hnd
  rcases List.append_eq_append_iff.mp hm with ⟨c, rfl, hc⟩ | ⟨c, rfl, hc⟩
  · subst hc
    have hold := h (l₁ ++ (m ++ c)) a m₂ (by simp)
    have hmem : a ∈ l₁ ++ (c ++ a :: m₂) := by simp
    have ha₁ : l₁.getLast? ≠ some a := fun hl =>
      absurd rfl (hdisj a (List.mem_of_getLast? hl) a (by simp))
    refine ⟨?_, by rw [hn a hmem ha₁, hold.2]⟩
    cases c with
    | nil => simpa using hpl a (by simp)
    | cons y c =>
        have hay : some y ≠ some a := by
          rintro hya
          obtain rfl := Option.some.inj hya
          exact absurd (List.nodup_append.mp hnd₂).2.1 (by simp)
        rw [hp a hmem (by simpa using hay), hold.1]
        simp [List.getLast?_append, List.getLast?_cons]
  · cases c with
    | nil =>
        obtain rfl : l₂ = a :: m₂ := by simpa using hc.symm
        have hold := h (m₁ ++ m) a m₂ (by simp)
        have ha₁ : m₁.getLast? ≠ some a := fun hl =>
          absurd rfl (hdisj a (by simpa using List.mem_of_getLast? hl) a (by simp))
        refine ⟨by simpa using hpl a (by simp), ?_⟩
        rw [hn a (by simp) (by simpa using ha₁), hold.2]
    | cons x c =>
        obtain ⟨rfl, rfl⟩ : a = x ∧ m₂ = c ++ l₂ := by simpa using hc
        have hold := h m₁ a (c ++ (m ++ l₂)) (by simp)
        have hmem : a ∈ (m₁ ++ a :: c) ++ l₂ := by simp
        have ha₂ : l₂.head? ≠ some a := fun hl =>
          absurd rfl (hdisj a (by simp) a (by simp [List.mem_of_head? hl]))
        refine ⟨by rw [hp a hmem ha₂, hold.1], ?_⟩
        cases c using List.reverseRecOn with
        | nil => simpa using hnl a (by simp)
        | append_singleton c y _ =>
            have hne : (m₁ ++ a :: (c ++ [y])).getLast? ≠ some a :=
              getLast?_ne_of_nodup (List.Nodup.sublist (List.sublist_append_left _ _) hnd)
            rw [hn a hmem hne, hold.2]
            cases c <;> simp

/-- Unlinking an element. -/
theorem remove {l₁ l₂ : List α} {z : α} (h : Linked next prev (l₁ ++ z :: l₂))
    (hnd : (l₁ ++ z :: l₂).Nodup)
    (hn : ∀ a ∈ l₁ ++ l₂, l₁.getLast? ≠ some a → next' a = next a)
    (hnl : ∀ a, l₁.getLast? = some a → next' a = l₂.head?)
    (hp : ∀ a ∈ l₁ ++ l₂, l₂.head? ≠ some a → prev' a = prev a)
    (hpl : ∀ a, l₂.head? = some a → prev' a = l₁.getLast?) :
    Linked next' prev' (l₁ ++ l₂) :=
  removeRange (m := [z]) h hnd hn hnl hp hpl

end Linked

/-- The link field spells out `l`, whose last element has a null link. -/
def Chained {α : Type*} (next : α → Option α) : List α → Prop
  | [] => True
  | a :: l => next a = l.head? ∧ Chained next l

namespace Chained

variable {α : Type*} {next next' : α → Option α}

/-- Only the links of the elements matter. -/
theorem congr {l : List α} (h : Chained next l) (hn : ∀ a ∈ l, next' a = next a) : Chained next' l := by
  induction l with
  | nil => trivial
  | cons a l ih =>
      exact ⟨(hn a List.mem_cons_self).trans h.1, ih h.2 fun b hb => hn b (List.mem_cons_of_mem a hb)⟩

/-- A new element is linked to the last one. -/
theorem concat {l : List α} {a b : α} (h : Chained next (l ++ [a])) (hn : ∀ c ∈ l, next' c = next c)
    (ha : next' a = some b) (hb : next' b = none) : Chained next' ((l ++ [a]) ++ [b]) := by
  induction l with
  | nil => exact ⟨ha, hb, trivial⟩
  | cons c l ih =>
      refine ⟨(hn c List.mem_cons_self).trans (h.1.trans ?_),
        ih h.2 fun d hd => hn d (List.mem_cons_of_mem c hd)⟩
      cases l <;> rfl

end Chained
