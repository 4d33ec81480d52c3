import Mathlib.Algebra.GroupWithZero.Nat
import Mathlib.Data.List.Basic
import Mathlib.Data.List.Forall2

/-!
# Bytes in memory

`BytesAt mem a bs` says that a memory holds the bytes `bs` from address `a` on. It splits over
appended lists, so that a structure laid out piece by piece is read back piece by piece. The pieces
here are little-endian words, tables of words and strings that end in a zero byte.
-/

/-- The memory holds `bs` from address `a` on. -/
def BytesAt (mem : ℕ → UInt8) (a : ℕ) (bs : List UInt8) : Prop :=
  ∀ k (h : k < bs.length), mem (a + k) = bs[k]

namespace BytesAt

variable {mem : ℕ → UInt8} {a : ℕ}

theorem nil : BytesAt mem a [] := fun _ h => absurd h (Nat.not_lt_zero _)

theorem append_iff {xs ys : List UInt8} :
    BytesAt mem a (xs ++ ys) ↔ BytesAt mem a xs ∧ BytesAt mem (a + xs.length) ys := by
  constructor
  · intro h
    refine ⟨fun k hk => ?_, fun k hk => ?_⟩
    · rw [h k (by simp; omega), List.getElem_append_left hk]
    · rw [Nat.add_assoc, h (xs.length + k) (by simpa using hk)]
      simp
  · rintro ⟨hx, hy⟩ k hk
    by_cases hlt : k < xs.length
    · rw [hx k hlt, List.getElem_append_left hlt]
    · rw [List.length_append] at hk
      have := hy (k - xs.length) (by omega)
      rw [Nat.add_assoc, Nat.add_sub_cancel' (by omega)] at this
      rw [this, List.getElem_append_right (by omega)]

theorem cons_iff {x : UInt8} {xs : List UInt8} :
    BytesAt mem a (x :: xs) ↔ mem a = x ∧ BytesAt mem (a + 1) xs := by
  have happ : BytesAt mem a ([x] ++ xs) ↔ _ := append_iff
  have hone : BytesAt mem a [x] ↔ mem a = x :=
    ⟨fun h => h 0 (by simp), fun h k hk => by
      obtain rfl : k = 0 := by simpa using hk
      exact h⟩
  simpa [hone] using happ

theorem of_replicate {n k : ℕ} {b : UInt8} (h : BytesAt mem a (List.replicate n b)) (hk : k < n) :
    mem (a + k) = b := by
  have hlt : k < (List.replicate n b).length := by rwa [List.length_replicate]
  rw [h k hlt, List.getElem_replicate]

/-- A piece of memory that is made of pieces. -/
theorem flatten {l : List (List UInt8)} (h : BytesAt mem a l.flatten) {k : ℕ} {xs : List UInt8}
    (hk : l[k]? = some xs) : BytesAt mem (a + ((l.take k).map List.length).sum) xs := by
  induction l generalizing a k with
  | nil => simp at hk
  | cons x l ih =>
      obtain ⟨hx, hl⟩ := append_iff.1 (List.flatten_cons ▸ h)
      cases k with
      | zero =>
          rw [List.getElem?_cons_zero, Option.some.injEq] at hk
          exact hk ▸ hx
      | succ k =>
          rw [List.getElem?_cons_succ] at hk
          rw [List.take_succ_cons, List.map_cons, List.sum_cons, ← Nat.add_assoc]
          exact ih hl hk

/-- A list is in the memory that it is read from. -/
theorem of_getD (l : List UInt8) : BytesAt (fun a => l.getD a 0) 0 l := by
  intro k hk
  simp [List.getElem?_eq_getElem hk]

end BytesAt

/-! ## Words -/

/-- The `n` low bytes of a number, the lowest one first. -/
def encodeLE : ℕ → ℕ → List UInt8
  | 0, _ => []
  | n + 1, v => UInt8.ofNat v :: encodeLE n (v / 256)

/-- The number in `n` bytes of memory. -/
def readLE (mem : ℕ → UInt8) : ℕ → ℕ → ℕ
  | 0, _ => 0
  | n + 1, a => (mem a).toNat + 256 * readLE mem n (a + 1)

@[simp] theorem length_encodeLE (n v : ℕ) : (encodeLE n v).length = n := by
  induction n generalizing v with
  | zero => rfl
  | succ n ih => simp [encodeLE, ih]

theorem BytesAt.readLE_eq {mem : ℕ → UInt8} {n v a : ℕ} (h : BytesAt mem a (encodeLE n v))
    (hv : v < 256 ^ n) : readLE mem n a = v := by
  induction n generalizing v a with
  | zero =>
      rw [Nat.pow_zero] at hv
      rw [readLE]
      omega
  | succ n ih =>
      obtain ⟨hhead, htail⟩ := cons_iff.1 h
      have hdiv : v / 256 < 256 ^ n := by
        rw [Nat.div_lt_iff_lt_mul (by omega), ← Nat.pow_succ]
        exact hv
      rw [readLE, ih htail hdiv, hhead, UInt8.toNat_ofNat']
      omega

/-- A word depends on its own bytes only. -/
theorem readLE_congr {mem mem' : ℕ → UInt8} {n a : ℕ} (h : ∀ i < n, mem' (a + i) = mem (a + i)) :
    readLE mem' n a = readLE mem n a := by
  induction n generalizing a with
  | zero => rfl
  | succ n ih =>
      have htail : readLE mem' n (a + 1) = readLE mem n (a + 1) := by
        refine ih fun i hi => ?_
        rw [Nat.add_assoc, Nat.add_comm 1 i]
        exact h (i + 1) (by omega)
      rw [readLE, readLE, htail, ← Nat.add_zero a, h 0 (by omega)]

/-- A table of `n`-byte words. -/
def encodeTable (n : ℕ) (words : List ℕ) : List UInt8 := words.flatMap (encodeLE n)

@[simp] theorem length_encodeTable (n : ℕ) (words : List ℕ) :
    (encodeTable n words).length = n * words.length := by
  induction words with
  | nil => rfl
  | cons w words ih =>
      rw [encodeTable, List.flatMap_cons, List.length_append, length_encodeLE]
      rw [encodeTable] at ih
      rw [ih, List.length_cons, Nat.mul_succ, Nat.add_comm]

/-- The words of a table that ends in a zero word; `none` if there is none within `fuel` words. -/
def readTable (mem : ℕ → UInt8) (n : ℕ) : (fuel a : ℕ) → Option (List ℕ)
  | 0, _ => none
  | fuel + 1, a =>
      if readLE mem n a = 0 then some []
      else (readTable mem n fuel (a + n)).map (readLE mem n a :: ·)

theorem BytesAt.readTable_eq {mem : ℕ → UInt8} {n : ℕ} {words : List ℕ} {a fuel : ℕ}
    (h : BytesAt mem a (encodeTable n words ++ encodeLE n 0))
    (hwords : ∀ w ∈ words, 0 < w ∧ w < 256 ^ n) (hfuel : words.length < fuel) :
    readTable mem n fuel a = some words := by
  induction words generalizing a fuel with
  | nil =>
      obtain ⟨fuel, rfl⟩ := Nat.exists_eq_add_of_lt hfuel
      have hzero := BytesAt.readLE_eq (v := 0) (by simpa [encodeTable] using h)
        (Nat.pow_pos (by omega))
      simp [readTable, hzero]
  | cons w words ih =>
      rw [encodeTable, List.flatMap_cons, List.append_assoc] at h
      obtain ⟨hhead, htail⟩ := append_iff.1 h
      rw [length_encodeLE] at htail
      obtain ⟨hpos, hlt⟩ := hwords w (by simp)
      rw [List.length_cons] at hfuel
      obtain ⟨fuel, rfl⟩ := Nat.exists_eq_add_of_lt (Nat.lt_of_le_of_lt (Nat.zero_le _) hfuel)
      have hw := hhead.readLE_eq hlt
      rw [Nat.zero_add, readTable, hw, if_neg (by omega),
        ih htail (fun w' hw' => hwords w' (by simp [hw'])) (by omega)]
      rfl

/-- A given number of words. -/
def readWords (mem : ℕ → UInt8) (n : ℕ) : (count a : ℕ) → List ℕ
  | 0, _ => []
  | count + 1, a => readLE mem n a :: readWords mem n count (a + n)

theorem BytesAt.readWords_eq {mem : ℕ → UInt8} {n : ℕ} {words : List ℕ} {a : ℕ}
    (h : BytesAt mem a (encodeTable n words)) (hwords : ∀ w ∈ words, w < 256 ^ n) :
    readWords mem n words.length a = words := by
  induction words generalizing a with
  | nil => rfl
  | cons w words ih =>
      rw [encodeTable, List.flatMap_cons] at h
      obtain ⟨hhead, htail⟩ := append_iff.1 h
      rw [length_encodeLE] at htail
      rw [List.length_cons, readWords, hhead.readLE_eq (hwords w (by simp)),
        ih htail fun w' hw' => hwords w' (by simp [hw'])]

/-! ## Bytes -/

/-- The `n` bytes from `a` on. -/
def readBytes (mem : ℕ → UInt8) : (n a : ℕ) → List UInt8
  | 0, _ => []
  | n + 1, a => mem a :: readBytes mem n (a + 1)

theorem BytesAt.readBytes_eq {mem : ℕ → UInt8} {bs : List UInt8} {a : ℕ} (h : BytesAt mem a bs) :
    readBytes mem bs.length a = bs := by
  induction bs generalizing a with
  | nil => rfl
  | cons b bs ih =>
      obtain ⟨hhead, htail⟩ := cons_iff.1 h
      rw [List.length_cons, readBytes, hhead, ih htail]

/-! ## Strings -/

/-- The bytes up to the first zero byte; `none` if there is none within `fuel` bytes. -/
def readString (mem : ℕ → UInt8) : (fuel a : ℕ) → Option (List UInt8)
  | 0, _ => none
  | fuel + 1, a => if mem a = 0 then some [] else (readString mem fuel (a + 1)).map (mem a :: ·)

theorem BytesAt.readString_eq {mem : ℕ → UInt8} {s : List UInt8} {a fuel : ℕ}
    (h : BytesAt mem a (s ++ [0])) (hs : (0 : UInt8) ∉ s) (hfuel : s.length < fuel) :
    readString mem fuel a = some s := by
  induction s generalizing a fuel with
  | nil =>
      obtain ⟨fuel, rfl⟩ := Nat.exists_eq_add_of_lt hfuel
      have hzero : mem a = 0 := h 0 (by simp)
      simp [readString, hzero]
  | cons x s ih =>
      obtain ⟨hhead, htail⟩ := cons_iff.1 h
      rw [List.length_cons] at hfuel
      obtain ⟨fuel, rfl⟩ := Nat.exists_eq_add_of_lt (Nat.lt_of_le_of_lt (Nat.zero_le _) hfuel)
      have hx : x ≠ 0 := fun hx => hs (by simp [hx])
      rw [Nat.zero_add, readString, hhead, if_neg hx,
        ih htail (fun hmem => hs (List.mem_cons_of_mem _ hmem)) (by omega)]
      rfl

/-- A string depends on its own bytes and the zero byte behind them only. -/
theorem readString_congr {mem mem' : ℕ → UInt8} {s : List UInt8} {fuel a : ℕ}
    (hs : readString mem fuel a = some s) (h : ∀ i ≤ s.length, mem' (a + i) = mem (a + i))
    (fuel' : ℕ) : readString mem' fuel' a = readString mem fuel' a := by
  induction fuel generalizing a s fuel' with
  | zero => cases hs
  | succ fuel ih =>
      cases fuel' with
      | zero => rfl
      | succ fuel' =>
          have hhead : mem' a = mem a := h 0 (Nat.zero_le _)
          rw [readString] at hs
          rw [readString, readString, hhead]
          by_cases hzero : mem a = 0
          · rw [if_pos hzero, if_pos hzero]
          · rw [if_neg hzero] at hs
            rw [if_neg hzero, if_neg hzero]
            obtain ⟨s', hs', rfl⟩ := Option.map_eq_some_iff.mp hs
            refine congrArg _ (ih hs' (fun i hi => ?_) fuel')
            rw [Nat.add_assoc, Nat.add_comm 1 i]
            exact h (i + 1) (by rw [List.length_cons]; omega)

/-- More fuel does not change a string. -/
theorem readString_mono {mem : ℕ → UInt8} {s : List UInt8} {fuel fuel' a : ℕ}
    (hs : readString mem fuel a = some s) (hle : fuel ≤ fuel') : readString mem fuel' a = some s := by
  induction fuel generalizing a s fuel' with
  | zero => cases hs
  | succ fuel ih =>
      obtain ⟨fuel', rfl⟩ := Nat.exists_eq_add_of_le' hle
      rw [readString] at hs
      rw [← Nat.add_assoc, readString]
      by_cases hzero : mem a = 0
      · rwa [if_pos hzero] at hs ⊢
      · rw [if_neg hzero] at hs ⊢
        obtain ⟨s', hs', rfl⟩ := Option.map_eq_some_iff.mp hs
        rw [ih hs' (by omega)]
        rfl

theorem readString_unique {mem : ℕ → UInt8} {s s' : List UInt8} {fuel fuel' a : ℕ}
    (hs : readString mem fuel a = some s) (hs' : readString mem fuel' a = some s') : s = s' :=
  Option.some.inj ((readString_mono hs (Nat.le_max_left fuel fuel')).symm.trans
    (readString_mono hs' (Nat.le_max_right fuel fuel')))

/-- A zero byte further on ends the string. -/
theorem exists_readString {mem : ℕ → UInt8} {a b : ℕ} (hab : a ≤ b) (hb : mem b = 0) :
    ∃ s, ∀ fuel, b - a < fuel → readString mem fuel a = some s := by
  obtain ⟨k, rfl⟩ := Nat.exists_eq_add_of_le hab
  induction k generalizing a with
  | zero =>
      refine ⟨[], fun fuel hfuel => ?_⟩
      obtain ⟨fuel, rfl⟩ := Nat.exists_eq_add_of_lt (Nat.zero_lt_of_lt hfuel)
      simp [readString, show mem a = 0 from hb]
  | succ k ih =>
      by_cases ha : mem a = 0
      · refine ⟨[], fun fuel hfuel => ?_⟩
        obtain ⟨fuel, rfl⟩ := Nat.exists_eq_add_of_lt (Nat.zero_lt_of_lt hfuel)
        simp [readString, ha]
      · obtain ⟨s, hs⟩ := ih (a := a + 1) (by omega) (by rwa [Nat.add_assoc, Nat.add_comm 1 k])
        refine ⟨mem a :: s, fun fuel hfuel => ?_⟩
        obtain ⟨fuel, rfl⟩ := Nat.exists_eq_add_of_lt (Nat.zero_lt_of_lt hfuel)
        rw [Nat.zero_add, readString, if_neg ha, hs fuel (by omega)]
        rfl

/-- The strings behind a list of pointers. -/
def readStrings (mem : ℕ → UInt8) (fuel : ℕ) : List ℕ → Option (List (List UInt8))
  | [] => some []
  | p :: ps => (readString mem fuel p).bind fun s => (readStrings mem fuel ps).map (s :: ·)

theorem readStrings_eq {mem : ℕ → UInt8} {ps : List ℕ} {ss : List (List UInt8)} {fuel : ℕ}
    (h : List.Forall₂ (fun p s => BytesAt mem p (s ++ [0])) ps ss)
    (hss : ∀ s ∈ ss, (0 : UInt8) ∉ s ∧ s.length < fuel) : readStrings mem fuel ps = some ss := by
  induction h with
  | nil => rfl
  | cons hs _ ih =>
      obtain ⟨hzero, hlen⟩ := hss _ (List.mem_cons_self ..)
      rw [readStrings, hs.readString_eq hzero hlen, Option.bind_some,
        ih fun s hs => hss s (by simp [hs])]
      rfl
