import Mathlib.Algebra.Group.Basic

/-!
# One's complement

The numbers up to `n` with the addition that carries out of the top and in at the bottom again. Zero
has two representations, `0` and `n`, and still the addition is commutative and associative, so sums
do not depend on the order of their terms. A number and its complement add to `n`, which is how a
checksum is verified.
-/

/-- A number up to `n`, to be added with an end-around carry. -/
@[ext]
structure OnesComplement (n : ℕ) where
  val : ℕ
  le : val ≤ n
deriving DecidableEq

namespace OnesComplement

variable {n : ℕ}

instance : Zero (OnesComplement n) := ⟨⟨0, Nat.zero_le n⟩⟩

instance : Add (OnesComplement n) where
  add a b :=
    { val := if a.val + b.val ≤ n then a.val + b.val else a.val + b.val - n
      le := by
        have ha := a.le
        have hb := b.le
        split <;> omega }

@[simp] theorem val_zero : (0 : OnesComplement n).val = 0 := rfl

theorem val_add (a b : OnesComplement n) :
    (a + b).val = if a.val + b.val ≤ n then a.val + b.val else a.val + b.val - n := rfl

instance : AddCommMonoid (OnesComplement n) where
  add_assoc a b c := by
    have ha := a.le
    have hc := c.le
    ext
    simp only [val_add]
    split_ifs <;> omega
  zero_add a := by
    ext
    rw [val_add, val_zero, Nat.zero_add, if_pos a.le]
  add_zero a := by
    ext
    rw [val_add, val_zero, Nat.add_zero, if_pos a.le]
  add_comm a b := by
    ext
    rw [val_add, val_add, Nat.add_comm]
  nsmul := nsmulRec

/-- The other zero. -/
def ones : OnesComplement n := ⟨n, Nat.le_refl n⟩

def compl (a : OnesComplement n) : OnesComplement n := ⟨n - a.val, Nat.sub_le n a.val⟩

theorem add_compl (a : OnesComplement n) : a + a.compl = ones := by
  have hsum : a.val + (n - a.val) = n := Nat.add_sub_cancel' a.le
  ext
  rw [val_add, show a.compl.val = n - a.val from rfl, hsum, if_pos (Nat.le_refl n)]
  rfl

theorem compl_ones : (ones : OnesComplement n).compl = 0 := by
  ext
  exact Nat.sub_self n

end OnesComplement
