import Ilobilix.Foundation.OnesComplement
import Mathlib.Algebra.BigOperators.Group.List.Basic
import Mathlib.Algebra.Group.Nat.Even

/-!
# The Internet checksum

`rfc1071` is the checksum as it is defined, the complement of the sum of the words in one's
complement. `Checksum` is the code: it adds the last byte of an odd number of bytes first, and folds
the carry back into the sum after every word.
-/

namespace Ilobilix.Net

/-- Two bytes, the higher one first. -/
def word (hi lo : UInt8) : UInt16 := hi.toUInt16 <<< 8 ||| lo.toUInt16

def wordBytes (w : UInt16) : List UInt8 := [(w >>> 8).toUInt8, w.toUInt8]

theorem word_toNat (hi lo : UInt8) : (word hi lo).toNat = hi.toNat * 2 ^ 8 + lo.toNat := by
  have hhi : hi.toNat < 2 ^ 8 := hi.toNat_lt
  have hlo : lo.toNat < 2 ^ 8 := lo.toNat_lt
  have hshift : (hi.toUInt16 <<< 8).toNat = hi.toNat <<< 8 := by
    have h : (hi.toUInt16 <<< 8).toNat = hi.toNat <<< 8 % 2 ^ 16 := rfl
    rw [h, Nat.shiftLeft_eq]
    omega
  have hor : (word hi lo).toNat = (hi.toUInt16 <<< 8).toNat ||| lo.toNat := rfl
  rw [hor, hshift, ← Nat.shiftLeft_add_eq_or_of_lt hlo, Nat.shiftLeft_eq]

theorem word_wordBytes (w : UInt16) : word (w >>> 8).toUInt8 w.toUInt8 = w := by
  have hw : w.toNat < 2 ^ 16 := w.toNat_lt
  have hhi : (w >>> 8).toUInt8.toNat = w.toNat / 2 ^ 8 % 2 ^ 8 := by
    rw [← Nat.shiftRight_eq_div_pow]
    rfl
  have hlo : w.toUInt8.toNat = w.toNat % 2 ^ 8 := rfl
  rw [← UInt16.toNat_inj, word_toNat, hhi, hlo]
  omega

/-- The words of some bytes, the last one padded with zero. -/
def words : List UInt8 → List UInt16
  | [] => []
  | [hi] => [word hi 0]
  | hi :: lo :: bytes => word hi lo :: words bytes

def digit (w : UInt16) : OnesComplement 0xFFFF := ⟨w.toNat, Nat.le_of_lt_succ w.toNat_lt⟩

def total (bytes : List UInt8) : OnesComplement 0xFFFF := ((words bytes).map digit).sum

def rfc1071 (bytes : List UInt8) : UInt16 := UInt16.ofNat (total bytes).compl.val

theorem even_of_cons {hi lo : UInt8} {bytes : List UInt8} (h : Even (hi :: lo :: bytes).length) :
    Even bytes.length := by
  rw [List.length_cons, List.length_cons, Nat.even_add_one, Nat.even_add_one, not_not] at h
  exact h

theorem total_append {xs : List UInt8} (ys : List UInt8) (heven : Even xs.length) :
    total (xs ++ ys) = total xs + total ys := by
  fun_induction words xs with
  | case1 => exact (zero_add _).symm
  | case2 hi => exact absurd heven Nat.not_even_one
  | case3 hi lo bytes ih =>
      have hrest := ih (even_of_cons heven)
      change digit (word hi lo) + total (bytes ++ ys) = digit (word hi lo) + total bytes + total ys
      rw [hrest, add_assoc]

/-! ## The code -/

/-- One turn of the loop of `update`. -/
def carry (value : UInt32) : UInt32 := (value >>> 16) + (value &&& 0xFFFF)

theorem carry_toNat (value : UInt32) :
    (carry value).toNat = value.toNat / 2 ^ 16 + value.toNat % 2 ^ 16 := by
  have hlt : value.toNat < 2 ^ 32 := value.toNat_lt
  have hand : (value &&& 0xFFFF).toNat = value.toNat % 2 ^ 16 :=
    Nat.and_two_pow_sub_one_eq_mod value.toNat 16
  have hshift : (value >>> 16).toNat = value.toNat / 2 ^ 16 := Nat.shiftRight_eq_div_pow value.toNat 16
  rw [carry, UInt32.toNat_add, hand, hshift]
  omega

theorem shiftRight_eq_zero_iff (value : UInt32) : value >>> 16 = 0 ↔ value.toNat < 2 ^ 16 := by
  have hshift : (value >>> 16).toNat = value.toNat / 2 ^ 16 := Nat.shiftRight_eq_div_pow value.toNat 16
  rw [← UInt32.toNat_inj, hshift]
  change value.toNat / 2 ^ 16 = 0 ↔ _
  omega

/-- The loop of `update`, which folds the carry. -/
def fold (value : UInt32) : UInt32 :=
  if value >>> 16 = 0 then value else fold (carry value)
termination_by value.toNat
decreasing_by
  rename_i h
  rw [shiftRight_eq_zero_iff] at h
  rw [carry_toNat]
  omega

/-- After one addition the carry is at most one, and the loop folds it once. -/
theorem fold_toNat {value : UInt32} (h : value.toNat ≤ 0xFFFF + 0xFFFF) :
    (fold value).toNat = if value.toNat ≤ 0xFFFF then value.toNat else value.toNat - 0xFFFF := by
  rw [fold]
  by_cases hlt : value >>> 16 = 0
  · rw [if_pos hlt]
    rw [shiftRight_eq_zero_iff] at hlt
    rw [if_pos (Nat.le_of_lt_succ hlt)]
  · have hcarry := carry_toNat value
    rw [if_neg hlt, fold]
    rw [shiftRight_eq_zero_iff] at hlt
    have hdone : carry value >>> 16 = 0 := (shiftRight_eq_zero_iff _).mpr (by omega)
    rw [if_pos hdone, if_neg (by omega), hcarry]
    omega

/-- `checksum`, whose private `_value` is `val`. -/
structure Checksum where
  val : UInt32 := 0

namespace Checksum

/-- `update` with one word. -/
def update (c : Checksum) (n : UInt16) : Checksum := ⟨fold (c.val + n.toUInt32)⟩

def updatePairs : List UInt8 → Checksum → Checksum
  | hi :: lo :: bytes, c => updatePairs bytes (c.update (word hi lo))
  | _, c => c

/-- `update` with bytes. -/
def updateBytes (c : Checksum) (data : List UInt8) : Checksum :=
  if data.length % 2 = 1 then
    updatePairs data.dropLast (c.update ((data.getD (data.length - 1) 0).toUInt16 <<< 8))
  else updatePairs data c

def value (c : Checksum) : UInt16 := (~~~ c.val).toUInt16

def compute (data : List UInt8) : UInt16 := (({} : Checksum).updateBytes data).value

/-- The state of the code stands for a number in one's complement. -/
def Rep (c : Checksum) (t : OnesComplement 0xFFFF) : Prop := c.val.toNat = t.val

variable {c : Checksum} {t : OnesComplement 0xFFFF}

theorem Rep.init : Rep {} 0 := rfl

theorem Rep.update (h : Rep c t) (n : UInt16) : Rep (c.update n) (t + digit n) := by
  have ht : t.val ≤ 0xFFFF := t.le
  have hn : n.toNat ≤ 0xFFFF := (digit n).le
  have hsum : (c.val + n.toUInt32).toNat = t.val + n.toNat := by
    rw [UInt32.toNat_add, UInt16.toNat_toUInt32, show c.val.toNat = t.val from h]
    omega
  have hle : (c.val + n.toUInt32).toNat ≤ 0xFFFF + 0xFFFF := by omega
  have hfold := fold_toNat hle
  rw [hsum] at hfold
  exact hfold

theorem Rep.value (h : Rep c t) : c.value = UInt16.ofNat t.compl.val := by
  have ht : t.val ≤ 0xFFFF := t.le
  have hval : c.val.toNat = t.val := h
  have hnot : (~~~ c.val).toNat = 2 ^ 32 - 1 - c.val.toNat := UInt32.toNat_not _
  rw [Checksum.value, ← UInt16.toNat_inj, UInt32.toNat_toUInt16, hnot, hval]
  change _ = (UInt16.ofNat (0xFFFF - t.val)).toNat
  rw [UInt16.toNat_ofNat']
  omega

theorem Rep.updatePairs (bytes : List UInt8) (heven : Even bytes.length) (h : Rep c t) :
    Rep (updatePairs bytes c) (t + total bytes) := by
  fun_induction Checksum.updatePairs bytes c generalizing t with
  | case1 hi lo bytes c ih =>
      have hrep := ih (even_of_cons heven) (h.update (word hi lo))
      rw [add_assoc] at hrep
      exact hrep
  | case2 bytes c hne =>
      match bytes with
      | [] =>
          rw [show total [] = 0 from rfl, add_zero]
          exact h
      | [_] => exact absurd heven Nat.not_even_one
      | hi :: lo :: bytes => exact (hne hi lo bytes rfl).elim

theorem Rep.updateBytes (data : List UInt8) (h : Rep c t) :
    Rep (c.updateBytes data) (t + total data) := by
  rw [Checksum.updateBytes]
  by_cases hodd : data.length % 2 = 1
  · -- The last byte comes first here, and last in the total.
    have hne : data ≠ [] := fun hnil => absurd hodd (by rw [hnil]; decide)
    have hlast : data.getD (data.length - 1) 0 = data.getLast hne := by
      rw [List.getLast_eq_getElem, List.getD_eq_getElem?_getD, List.getElem?_eq_getElem]
      rfl
    have heven : Even data.dropLast.length := by
      rw [List.length_dropLast, Nat.even_iff]
      omega
    have hword : word (data.getLast hne) 0 = (data.getLast hne).toUInt16 <<< 8 := UInt16.or_zero
    have hsplit : total data = total data.dropLast + digit (word (data.getLast hne) 0) := by
      conv_lhs => rw [← List.dropLast_append_getLast hne, total_append _ heven]
      exact congrArg (total data.dropLast + ·) (add_zero _)
    have hrep := (h.update (word (data.getLast hne) 0)).updatePairs data.dropLast heven
    rw [if_pos hodd, hlast, hsplit, ← hword, add_comm (total data.dropLast), ← add_assoc]
    exact hrep
  · have heven : Even data.length := by
      rw [Nat.even_iff]
      omega
    rw [if_neg hodd]
    exact h.updatePairs data heven

/-- However the data are split, the sums of the chunks are added. -/
theorem Rep.foldl (chunks : List (List UInt8)) (h : Rep c t) :
    Rep (chunks.foldl Checksum.updateBytes c) (t + (chunks.map total).sum) := by
  induction chunks generalizing c t with
  | nil =>
      rw [List.map_nil, List.sum_nil, add_zero]
      exact h
  | cons chunk chunks ih =>
      have hrep := ih (h.updateBytes chunk)
      rw [add_assoc] at hrep
      exact hrep

theorem compute_eq (data : List UInt8) : compute data = rfc1071 data := by
  have hrep := Rep.init.updateBytes data
  rw [zero_add] at hrep
  exact hrep.value

end Checksum

theorem total_flatten {chunks : List (List UInt8)} (last : List UInt8)
    (h : ∀ chunk ∈ chunks, Even chunk.length) :
    total (chunks.flatten ++ last) = ((chunks ++ [last]).map total).sum := by
  induction chunks with
  | nil => exact (add_zero _).symm
  | cons chunk chunks ih =>
      obtain ⟨hchunk, hrest⟩ := List.forall_mem_cons.mp h
      rw [List.flatten_cons, List.append_assoc, total_append _ hchunk, ih hrest]
      rfl

theorem Checksum.foldl_eq {chunks order : List (List UInt8)} (last : List UInt8)
    (heven : ∀ chunk ∈ chunks, Even chunk.length) (horder : order.Perm (chunks ++ [last])) :
    (order.foldl Checksum.updateBytes {}).value = Checksum.compute (chunks.flatten ++ last) := by
  have hsum : (order.map total).sum = total (chunks.flatten ++ last) := by
    rw [total_flatten last heven]
    exact (horder.map total).sum_eq
  have hrep := Rep.init.foldl order
  rw [zero_add, hsum] at hrep
  rw [hrep.value, compute_eq, rfc1071]

/-! ## The field of the checksum -/

theorem total_wordBytes (w : UInt16) : total (wordBytes w) = digit w := by
  change digit (word (w >>> 8).toUInt8 w.toUInt8) + 0 = digit w
  rw [word_wordBytes, add_zero]

theorem digit_rfc1071 (data : List UInt8) : digit (rfc1071 data) = (total data).compl := by
  have hlt : (total data).compl.val < 2 ^ 16 := Nat.lt_succ_of_le (total data).compl.le
  ext
  exact UInt16.toNat_ofNat'.trans (Nat.mod_eq_of_lt hlt)

/-- Some data with a word in it. -/
def placed (before after : List UInt8) (w : UInt16) : List UInt8 := before ++ wordBytes w ++ after

/-- A checksum that is placed in the data itself makes the total all ones. -/
theorem total_placed {before : List UInt8} (after : List UInt8) (heven : Even before.length) :
    total (placed before after (rfc1071 (placed before after 0))) = OnesComplement.ones := by
  have hfield (w : UInt16) : total (placed before after w) = total before + total after + digit w := by
    have heven' : Even (wordBytes w).length := ⟨1, rfl⟩
    rw [placed, List.append_assoc, total_append _ heven, total_append _ heven', total_wordBytes,
      add_assoc, add_comm (digit w)]
  have hzero : total (placed before after 0) = total before + total after := by
    rw [hfield]
    exact add_zero _
  rw [hfield, digit_rfc1071, hzero, OnesComplement.add_compl]

/-- The checksum is the one of RFC 1071, does not depend on how the data are split, and becomes zero
when it is placed in a field of the data that was zero. -/
theorem Checksum.compute_correct :
    (∀ data : List UInt8, Checksum.compute data = rfc1071 data) ∧
    (∀ (chunks : List (List UInt8)) (last : List UInt8) (order : List (List UInt8)),
      (∀ chunk ∈ chunks, Even chunk.length) → order.Perm (chunks ++ [last]) →
      (order.foldl Checksum.updateBytes {}).value = Checksum.compute (chunks.flatten ++ last)) ∧
    ∀ before after : List UInt8, Even before.length →
      Checksum.compute (placed before after (Checksum.compute (placed before after 0))) = 0 := by
  refine ⟨Checksum.compute_eq, fun chunks last order => Checksum.foldl_eq last, ?_⟩
  intro before after heven
  rw [Checksum.compute_eq, Checksum.compute_eq, rfc1071, total_placed after heven,
    OnesComplement.compl_ones]
  rfl

theorem Checksum.compute_split :
    ([[3], [1, 2]].foldl Checksum.updateBytes {}).value = Checksum.compute [1, 2, 3] ∧
      Checksum.compute (placed [1, 2] [3] (Checksum.compute (placed [1, 2] [3] 0))) = 0 :=
  ⟨Checksum.compute_correct.2.1 [[1, 2]] [3] [[3], [1, 2]] (by decide) (by decide),
    Checksum.compute_correct.2.2 [1, 2] [3] (by decide)⟩

end Ilobilix.Net
