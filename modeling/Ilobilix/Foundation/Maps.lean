import Mathlib.Data.Finmap

/-!
# Finite maps as functions

What a finite map says after an insertion or a removal, at every key at once.
-/

namespace Finmap

variable {α β : Type*} [DecidableEq α]

theorem lookup_insert_eq (m : Finmap fun _ : α => β) (a x : α) (b : β) :
    (m.insert a b).lookup x = if x = a then some b else m.lookup x := by
  split
  · rw [‹x = a›, lookup_insert]
  · exact lookup_insert_of_ne _ ‹_›

theorem lookup_insert_eq_some {m : Finmap fun _ : α => β} {a x : α} {b c : β} (ha : a ∉ m) :
    (m.insert a b).lookup x = some c ↔ x = a ∧ c = b ∨ m.lookup x = some c := by
  rw [lookup_insert_eq]
  split
  · rename_i heq
    rw [heq, lookup_eq_none.mpr ha]
    simp [eq_comm]
  · simp [*]

theorem lookup_insert_empty {a x : α} {b c : β} :
    ((∅ : Finmap fun _ : α => β).insert a b).lookup x = some c ↔ x = a ∧ c = b := by
  rw [lookup_insert_eq_some notMem_empty, lookup_empty]
  simp

theorem lookup_erase_eq (m : Finmap fun _ : α => β) (a x : α) :
    (m.erase a).lookup x = if x = a then none else m.lookup x := by
  split
  · rw [‹x = a›, lookup_erase]
  · exact lookup_erase_ne ‹_›

end Finmap
