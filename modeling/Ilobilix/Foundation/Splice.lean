import Ilobilix.Foundation.Bytes
import Mathlib.Logic.Function.Basic

/-!
# Writing to a range

`splice mem dest n content` is `mem` with the `n` places from `dest` on replaced. `Ascends` is a
memory that is filled chunk by chunk from the lowest place on, where each chunk is read from the
memory as it is by then. However the range is divided, the result is the splice of what was to be
read in the beginning, provided that no chunk changes what a later one reads.
-/

universe u

variable {α : Type u}

def splice (mem : ℕ → α) (dest n : ℕ) (content : ℕ → α) : ℕ → α :=
  fun a => if dest ≤ a ∧ a < dest + n then content (a - dest) else mem a

section Splice

variable {mem : ℕ → α} {dest n : ℕ} {content : ℕ → α}

@[simp] theorem splice_zero : splice mem dest 0 content = mem := by
  funext a
  exact if_neg (by omega)

theorem splice_inside {i : ℕ} (hi : i < n) : splice mem dest n content (dest + i) = content i := by
  rw [splice, if_pos ⟨Nat.le_add_right _ _, Nat.add_lt_add_left hi _⟩, Nat.add_sub_cancel_left]

theorem splice_outside {a : ℕ} (ha : ¬(dest ≤ a ∧ a < dest + n)) :
    splice mem dest n content a = mem a := if_neg ha

theorem splice_congr {content' : ℕ → α} (h : ∀ i < n, content' i = content i) :
    splice mem dest n content' = splice mem dest n content := by
  funext a
  by_cases ha : dest ≤ a ∧ a < dest + n
  · rw [splice, splice, if_pos ha, if_pos ha]
    exact h _ (by omega)
  · rw [splice_outside ha, splice_outside ha]

/-- Two ranges next to each other. -/
theorem splice_append (content : ℕ → α) (m : ℕ) :
    splice (splice mem dest n content) (dest + n) m (fun i => content (n + i)) =
      splice mem dest (n + m) content := by
  funext a
  unfold splice
  by_cases hlow : dest ≤ a ∧ a < dest + n
  · rw [if_neg (by omega), if_pos hlow, if_pos (by omega)]
  · by_cases hhigh : dest + n ≤ a ∧ a < dest + n + m
    · have hsub : n + (a - (dest + n)) = a - dest := by omega
      rw [if_pos hhigh, if_pos (by omega)]
      exact congrArg content hsub
    · rw [if_neg hhigh, if_neg hlow, if_neg (by omega)]

theorem splice_one : splice mem dest 1 content = Function.update mem dest (content 0) := by
  funext a
  by_cases ha : a = dest
  · rw [ha, Function.update_self]
    exact splice_inside (i := 0) Nat.one_pos
  · rw [Function.update_of_ne ha, splice_outside (by omega)]

/-- The last place first. -/
theorem splice_update :
    splice (Function.update mem (dest + n) (content n)) dest n content =
      splice mem dest (n + 1) content := by
  funext a
  by_cases ha : dest ≤ a ∧ a < dest + n
  · rw [splice, splice, if_pos ha, if_pos (by omega)]
  · rw [splice_outside ha]
    by_cases hlast : a = dest + n
    · rw [hlast, Function.update_self, splice_inside (Nat.lt_succ_self n)]
    · rw [Function.update_of_ne hlast, splice_outside (by omega)]

end Splice

/-! ## Filling a range chunk by chunk -/

/-- The places from `dest` to `dest + k` have been filled. `read mem i` is what the place
`dest + i` gets if the memory is `mem` when its chunk is read. -/
inductive Ascends (read : (ℕ → α) → ℕ → α) (dest : ℕ) (start : ℕ → α) : ℕ → (ℕ → α) → Prop where
  | start : Ascends read dest start 0 start
  | chunk {k : ℕ} {mem : ℕ → α} (h : Ascends read dest start k mem) (c : ℕ) :
      Ascends read dest start (k + c) (splice mem (dest + k) c fun i => read mem (k + i))

namespace Ascends

variable {read : (ℕ → α) → ℕ → α} {dest k : ℕ} {start mem : ℕ → α}

/-- Whatever a chunk reads, only the range is written. -/
theorem outside (h : Ascends read dest start k mem) {a : ℕ} (ha : ¬(dest ≤ a ∧ a < dest + k)) :
    mem a = start a := by
  induction h with
  | start => rfl
  | chunk _ c ih =>
      rw [splice_outside (by omega)]
      exact ih (by omega)

theorem eq_splice {n : ℕ} (h : Ascends read dest start k mem) (hk : k ≤ n)
    (hread : ∀ j mem', (∀ a, ¬(dest ≤ a ∧ a < dest + j) → mem' a = start a) →
      ∀ i, j ≤ i → i < n → read mem' i = read start i) :
    mem = splice start dest k (read start) := by
  induction h with
  | start => rw [splice_zero]
  | @chunk j mem' h c ih =>
      rw [ih (by omega), ← splice_append]
      refine splice_congr fun i hi => ?_
      rw [← ih (by omega)]
      exact hread j mem' (fun _ => h.outside) _ (Nat.le_add_right _ _) (by omega)

end Ascends

/-! ## Words -/

/-- A word is stored with its lowest byte first. -/
def storeLE (mem : ℕ → UInt8) (size p value : ℕ) : ℕ → UInt8 :=
  splice mem p size fun i => UInt8.ofNat (value / 256 ^ i)

theorem ofNat_readLE_div (mem : ℕ → UInt8) {size i : ℕ} (a : ℕ) (hi : i < size) :
    UInt8.ofNat (readLE mem size a / 256 ^ i) = mem (a + i) := by
  induction size generalizing a i with
  | zero => exact absurd hi (Nat.not_lt_zero _)
  | succ size ih =>
      have hbyte := (mem a).toNat_lt
      rw [readLE]
      cases i with
      | zero =>
          change _ = mem a
          apply UInt8.toNat_inj.mp
          rw [UInt8.toNat_ofNat', Nat.pow_zero, Nat.div_one]
          omega
      | succ i =>
          have hdiv : ((mem a).toNat + 256 * readLE mem size (a + 1)) / 256 =
              readLE mem size (a + 1) := by omega
          rw [Nat.pow_succ', ← Nat.div_div_eq_div_mul, hdiv, ih _ (by omega), Nat.add_assoc,
            Nat.add_comm 1 i]

/-- Storing a word that has been loaded moves its bytes. -/
theorem storeLE_readLE (mem mem' : ℕ → UInt8) (size p a : ℕ) :
    storeLE mem size p (readLE mem' size a) = splice mem p size fun i => mem' (a + i) :=
  splice_congr fun _ hi => (ofNat_readLE_div mem' a hi).symm ▸ rfl

theorem readLE_lt (mem : ℕ → UInt8) (size a : ℕ) : readLE mem size a < 2 ^ (8 * size) := by
  induction size generalizing a with
  | zero => exact Nat.one_pos
  | succ size ih =>
      have hbyte := (mem a).toNat_lt
      have hrest := ih (a + 1)
      rw [readLE, Nat.mul_succ, Nat.pow_add]
      omega

theorem readLE_succ (mem : ℕ → UInt8) (size a : ℕ) :
    readLE mem (size + 1) a = readLE mem size a + (mem (a + size)).toNat * 2 ^ (8 * size) := by
  induction size generalizing a with
  | zero => simp [readLE]
  | succ size ih =>
      have hpow : 2 ^ (8 * (size + 1)) = 256 * 2 ^ (8 * size) := by
        rw [Nat.mul_succ, Nat.pow_add, Nat.mul_comm]
      rw [readLE, ih (a + 1), readLE, hpow, Nat.add_assoc a, Nat.add_comm 1 size,
        Nat.mul_left_comm]
      omega

/-- The highest byte of a word, as the shift that puts it there. -/
theorem readLE_or (mem : ℕ → UInt8) (size a : ℕ) :
    readLE mem (size + 1) a = readLE mem size a ||| (mem (a + size)).toNat <<< (8 * size) := by
  rw [Nat.or_comm, ← Nat.shiftLeft_add_eq_or_of_lt (readLE_lt mem size a), Nat.shiftLeft_eq,
    readLE_succ, Nat.add_comm]
