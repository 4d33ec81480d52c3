import Mathlib.Data.Nat.Init
import Mathlib.Logic.Function.Iterate

/-!
# Shift registers

A word of the sequence of a shift register is computed from the `n` words before it. The register
itself is a ring of `n` words: the word that is computed takes the place of the oldest one. `next` is
given the ring as a window that begins at the oldest word.

`window_iterate` says that the ring is the end of the sequence, and `IsSequence.agree` that two
sequences that agree for `n` words agree from then on. The words of the sequences are often changed by
the exclusive or with a shift of themselves, and `injective_of_lower` and `injective_of_upper` say when
that can be taken back.
-/

namespace ShiftRegister

variable {α : Type*}

/-- The words and the place of the oldest one. -/
structure RingBuffer (α : Type*) where
  words : ℕ → α
  pos : ℕ

variable {n : ℕ} {next : (ℕ → α) → α}

/-- The words from the oldest one on. -/
def RingBuffer.window (n : ℕ) (r : RingBuffer α) (k : ℕ) : α := r.words ((r.pos + k) % n)

def RingBuffer.step (n : ℕ) (next : (ℕ → α) → α) (r : RingBuffer α) : RingBuffer α where
  words := Function.update r.words r.pos (next (r.window n))
  pos := (r.pos + 1) % n

/-- Each word is computed from the `n` words before it. -/
def IsSequence (n : ℕ) (next : (ℕ → α) → α) (x : ℕ → α) : Prop :=
  ∀ t, x (t + n) = next fun k => x (t + k % n)

/-- The sequence that begins with the `n` words of `init`. -/
def sequence (n : ℕ) (next : (ℕ → α) → α) (init : ℕ → α) (t : ℕ) : α :=
  if _h : n ≤ t ∧ 0 < n then next fun k => sequence n next init (t - n + k % n) else init t
decreasing_by
  have hk := Nat.mod_lt k _h.2
  omega

theorem sequence_of_lt {init : ℕ → α} {t : ℕ} (h : t < n) : sequence n next init t = init t := by
  rw [sequence, dif_neg fun hand => Nat.not_le.mpr h hand.1]

theorem isSequence_sequence (hn : 0 < n) (init : ℕ → α) : IsSequence n next (sequence n next init) := by
  intro t
  rw [sequence, dif_pos ⟨Nat.le_add_left n t, hn⟩, Nat.add_sub_cancel]

theorem IsSequence.shift {x : ℕ → α} (hx : IsSequence n next x) (T : ℕ) :
    IsSequence n next fun t => x (T + t) := by
  intro t
  have h := hx (T + t)
  simp only [Nat.add_assoc] at h
  exact h

/-- Two sequences that agree for `n` words agree from then on. -/
theorem IsSequence.agree {x y : ℕ → α} (hx : IsSequence n next x) (hy : IsSequence n next y)
    (hn : 0 < n) {T : ℕ} (h : ∀ k < n, x (T + k) = y (T + k)) {t : ℕ} (ht : T ≤ t) : x t = y t := by
  induction t using Nat.strongRecOn with
  | ind t ih =>
      by_cases hlt : t < T + n
      · rw [← Nat.add_sub_cancel' ht]
        exact h _ (by omega)
      · obtain ⟨s, rfl⟩ : ∃ s, t = s + n := ⟨t - n, by omega⟩
        rw [hx, hy]
        refine congrArg next (funext fun k => ih _ ?_ ?_)
        · have hk := Nat.mod_lt k hn
          omega
        · omega

namespace RingBuffer

variable {r : RingBuffer α}

theorem window_mod (k : ℕ) : r.window n (k % n) = r.window n k := by
  rw [window, window, Nat.add_mod_mod]

theorem pos_step_lt (hn : 0 < n) : (r.step n next).pos < n := Nat.mod_lt _ hn

/-- The window moves by one word. -/
theorem window_step (hr : r.pos < n) {k : ℕ} (hk : k < n) :
    (r.step n next).window n k = if k + 1 = n then next (r.window n) else r.window n (k + 1) := by
  have hpos : ((r.pos + 1) % n + k) % n = (r.pos + (k + 1)) % n := by
    rw [Nat.mod_add_mod, Nat.add_right_comm, ← Nat.add_assoc]
  change Function.update r.words r.pos _ (((r.pos + 1) % n + k) % n) = _
  rw [hpos]
  split
  next hlast => rw [hlast, Nat.add_mod_right, Nat.mod_eq_of_lt hr, Function.update_self]
  next hlast =>
    refine Function.update_of_ne (fun heq => ?_) _ _
    by_cases hwrap : r.pos + (k + 1) < n
    · rw [Nat.mod_eq_of_lt hwrap] at heq
      omega
    · rw [Nat.mod_eq_sub_mod (Nat.not_lt.mp hwrap), Nat.mod_eq_of_lt (by omega)] at heq
      omega

theorem pos_iterate_lt (hr : r.pos < n) (t : ℕ) : ((step n next)^[t] r).pos < n := by
  cases t with
  | zero => exact hr
  | succ t =>
      rw [Function.iterate_succ_apply']
      exact pos_step_lt (Nat.zero_lt_of_lt hr)

/-- After `t` steps the ring has the words of the sequence from number `t` on. -/
theorem window_iterate (hr : r.pos < n) (t : ℕ) {k : ℕ} (hk : k < n) :
    ((step n next)^[t] r).window n k = sequence n next (r.window n) (t + k) := by
  have hn := Nat.zero_lt_of_lt hr
  induction t generalizing k with
  | zero => rw [Nat.zero_add, sequence_of_lt hk, Function.iterate_zero_apply]
  | succ t ih =>
      rw [Function.iterate_succ_apply', window_step (pos_iterate_lt hr t) hk]
      split
      next hlast =>
        rw [Nat.add_right_comm, Nat.add_assoc, hlast, isSequence_sequence hn]
        refine congrArg next (funext fun j => ?_)
        rw [← window_mod, ih (Nat.mod_lt j hn)]
      next hlast => rw [ih (by omega), Nat.add_right_comm, Nat.add_assoc]

end RingBuffer

/-! ## Exclusive or with a shift -/

variable {w : ℕ} {g : BitVec w → BitVec w}

/-- If a bit of `g x` only depends on the bits below it, they can be recovered from the lowest on. -/
theorem injective_of_lower (hg : ∀ x y i, (∀ j < i, x.getLsbD j = y.getLsbD j) →
    (g x).getLsbD i = (g y).getLsbD i) : Function.Injective fun x => x ^^^ g x := by
  intro x y h
  have hbit : ∀ i, x.getLsbD i = y.getLsbD i := fun i => by
    induction i using Nat.strongRecOn with
    | ind i ih =>
        have hi := congrArg (BitVec.getLsbD · i) h
        simp only [BitVec.getLsbD_xor] at hi
        rwa [hg x y i ih, Bool.xor_left_inj] at hi
  exact BitVec.eq_of_getLsbD_eq fun i _ => hbit i

/-- If it only depends on the bits above it, they can be recovered from the highest on. -/
theorem injective_of_upper (hg : ∀ x y i, (∀ j, i < j → x.getLsbD j = y.getLsbD j) →
    (g x).getLsbD i = (g y).getLsbD i) : Function.Injective fun x => x ^^^ g x := by
  intro x y h
  have hbit : ∀ k i, w ≤ i + k → x.getLsbD i = y.getLsbD i := fun k => by
    induction k with
    | zero =>
        intro i hi
        rw [Nat.add_zero] at hi
        rw [BitVec.getLsbD_of_ge _ _ hi, BitVec.getLsbD_of_ge _ _ hi]
    | succ k ih =>
        intro i hi
        have hxor := congrArg (BitVec.getLsbD · i) h
        simp only [BitVec.getLsbD_xor] at hxor
        rwa [hg x y i fun j hj => ih j (by omega), Bool.xor_left_inj] at hxor
  exact BitVec.eq_of_getLsbD_eq fun i _ => hbit w i (Nat.le_add_left w i)

end ShiftRegister
