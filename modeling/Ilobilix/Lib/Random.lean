import Ilobilix.Foundation.ShiftRegister
import Mathlib.Data.Nat.Bitwise

/-!
# The Mersenne twister

`mersenne_twister_engine` keeps `n` words in a ring. A call takes the high bits of the oldest word and
the low bits of the next one, twists them into a new word that replaces the oldest, and tempers that
word to the number it returns. A type of `digits` bits holds the words, of which `w` bits are used.

`output_eq_words` compares the ring with the sequence that the generator is defined by. The other
results are for parameters like those of `mt19937` and `mt19937_64`: `eq_iff_outputs` says what
`operator==` compares, `outputs_agree` that the generator can be predicted from `n` numbers, and
`exists_output_ne_zero` that no seed leads to an engine that stays at zero.
-/

namespace Ilobilix.Random

open ShiftRegister

/-- The lowest bits of a type. -/
def low (digits count : ℕ) : BitVec digits :=
  if count = digits then ~~~0#(digits) else (1#(digits) <<< count) - 1#(digits)

/-- The parameters of `mersenne_twister_engine`, with its assertions. -/
structure Twister where
  digits : ℕ
  w : ℕ
  n : ℕ
  m : ℕ
  r : ℕ
  a : BitVec digits
  u : ℕ
  d : BitVec digits
  s : ℕ
  b : BitVec digits
  t : ℕ
  c : BitVec digits
  l : ℕ
  f : BitVec digits
  m_pos : 0 < m
  m_le : m ≤ n
  w_le : w ≤ digits
  two_le : 2 ≤ w
  r_le : r ≤ w
  shifts_le : u ≤ w ∧ s ≤ w ∧ t ≤ w ∧ l ≤ w
  a_le : a ≤ low digits w
  masks_le : b ≤ low digits w ∧ c ≤ low digits w ∧ d ≤ low digits w ∧ f ≤ low digits w

namespace Twister

variable (p : Twister)

abbrev Word := BitVec p.digits

/-- `Max`. -/
def max : p.Word := low p.digits p.w

def mask : p.Word := low p.digits p.r

def lshift (count : ℕ) (x : p.Word) : p.Word := if count < p.w then (x <<< count) &&& p.max else 0

def rshift (count : ℕ) (x : p.Word) : p.Word := if count < p.digits then x >>> count else 0

/-- `_x` and `_i`. -/
abbrev Engine := RingBuffer p.Word

/-- `seed` with a number. -/
def seedWords (sd : p.Word) : ℕ → p.Word
  | 0 => sd &&& p.max
  | i + 1 => (p.f * (seedWords sd i ^^^ p.rshift (p.w - 2) (seedWords sd i)) +
      BitVec.ofNat p.digits (i + 1)) &&& p.max

def seed (sd : p.Word) : p.Engine := ⟨p.seedWords sd, 0⟩

/-- The words of `seed` with a seed sequence that generates `ar`, of which a word takes one number or
two. -/
def sequenceWord (ar : ℕ → BitVec 32) (i : ℕ) : p.Word :=
  if 1 + (p.w - 1) / 32 = 1 then (ar i).setWidth p.digits &&& p.max
  else ((ar (2 * i)).setWidth 64 + (ar (2 * i + 1)).setWidth 64 <<< 32).setWidth p.digits &&& p.max

/-- `seed` with a seed sequence. -/
def seedSequence (ar : ℕ → BitVec 32) : p.Engine where
  words :=
    if p.sequenceWord ar 0 &&& ~~~p.mask = 0 ∧ ∀ i < p.n, 1 ≤ i → p.sequenceWord ar i = 0 then
      Function.update (p.sequenceWord ar) 0 (1#(p.digits) <<< (p.w - 1))
    else p.sequenceWord ar
  pos := 0

/-- The new word, without the one it is added to. -/
def twist (oldest second : p.Word) : p.Word :=
  let y := (oldest &&& ~~~p.mask) ||| (second &&& p.mask)
  p.rshift 1 y ^^^ p.a * (y &&& 1#(p.digits))

def temper (x : p.Word) : p.Word :=
  let z := x ^^^ (p.rshift p.u x &&& p.d)
  let z := z ^^^ (p.lshift p.s z &&& p.b)
  let z := z ^^^ (p.lshift p.t z &&& p.c)
  z ^^^ p.rshift p.l z

/-- `operator()`. -/
def call (e : p.Engine) : p.Word × p.Engine :=
  let j := (e.pos + 1) % p.n
  let k := (e.pos + p.m) % p.n
  let x := e.words k ^^^ p.twist (e.words e.pos) (e.words j)
  (p.temper x, { words := Function.update e.words e.pos x, pos := j })

/-- `std::equal` of the words of two arrays, from `x` up to `last` and from `y` on. -/
def equal (v v' : ℕ → p.Word) (x last y : ℕ) : Bool :=
  (List.range (last - x)).all fun k => v (x + k) = v' (y + k)

/-- `operator==`. -/
def eq (e e' : p.Engine) : Bool :=
  if e.pos = e'.pos then p.equal e.words e'.words 0 p.n 0
  else if e.pos = 0 ∨ e'.pos = 0 then
    let j := min (p.n - e.pos) (p.n - e'.pos)
    p.equal e.words e'.words e.pos (e.pos + j) e'.pos &&
      if e.pos = 0 then p.equal e.words e'.words j p.n 0 else p.equal e.words e'.words 0 (p.n - j) j
  else if e.pos < e'.pos then
    let j := p.n - e'.pos
    p.equal e.words e'.words e.pos (e.pos + j) e'.pos &&
      p.equal e.words e'.words (e.pos + j) p.n 0 &&
      p.equal e.words e'.words 0 e.pos (p.n - (e.pos + j))
  else
    let j := p.n - e.pos
    p.equal e'.words e.words e'.pos (e'.pos + j) e.pos &&
      p.equal e'.words e.words (e'.pos + j) p.n 0 &&
      p.equal e'.words e.words 0 e'.pos (p.n - (e'.pos + j))

/-- The engine after some calls. -/
def after (e : p.Engine) (t : ℕ) : p.Engine := (fun e => (p.call e).2)^[t] e

/-- What call number `t` returns. -/
def output (e : p.Engine) (t : ℕ) : p.Word := (p.call (p.after e t)).1

/-- What the ring computes from its words, the oldest first. -/
def nextWord (v : ℕ → p.Word) : p.Word := v p.m ^^^ p.twist (v 0) (v 1)

/-- The sequence of words, which begins with those of the engine. -/
def words (e : p.Engine) : ℕ → p.Word := sequence p.n p.nextWord (e.window p.n)

/-! ## The sequence of words -/

variable {p} {e e' : p.Engine}

theorem n_pos : 0 < p.n := p.m_pos.trans_le p.m_le

theorem call_eq (h : e.pos < p.n) :
    p.call e = (p.temper (p.nextWord (e.window p.n)), e.step p.n p.nextWord) := by
  have hpos : e.window p.n 0 = e.words e.pos := by
    rw [RingBuffer.window, Nat.add_zero, Nat.mod_eq_of_lt h]
  unfold call RingBuffer.step nextWord
  rw [hpos]
  rfl

theorem after_eq (h : e.pos < p.n) (t : ℕ) : p.after e t = (RingBuffer.step p.n p.nextWord)^[t] e := by
  induction t with
  | zero => rfl
  | succ t ih =>
      have hpos : ((RingBuffer.step p.n p.nextWord)^[t] e).pos < p.n := RingBuffer.pos_iterate_lt h t
      rw [after, Function.iterate_succ_apply', Function.iterate_succ_apply', ← after, ih, call_eq hpos]

theorem words_of_lt {k : ℕ} (h : k < p.n) : p.words e k = e.window p.n k := sequence_of_lt h

theorem isSequence_words : IsSequence p.n p.nextWord (p.words e) := isSequence_sequence n_pos _

/-- The numbers are those of the sequence, tempered. -/
theorem output_eq_words (h : e.pos < p.n) (t : ℕ) : p.output e t = p.temper (p.words e (t + p.n)) := by
  rw [output, after_eq h, call_eq (RingBuffer.pos_iterate_lt h t), isSequence_words]
  refine congrArg p.temper (congrArg p.nextWord (funext fun k => ?_))
  rw [← RingBuffer.window_mod, RingBuffer.window_iterate h t (Nat.mod_lt k n_pos)]
  rfl

/-! ## Equality of engines -/

theorem equal_iff {v v' : ℕ → p.Word} {x last y : ℕ} :
    p.equal v v' x last y = true ↔ ∀ k < last - x, v (x + k) = v' (y + k) := by
  simp [equal]

theorem equal_comm {v v' : ℕ → p.Word} {x y c : ℕ} :
    p.equal v v' x (x + c) y = p.equal v' v y (y + c) x := by
  rw [Bool.eq_iff_iff, equal_iff, equal_iff, Nat.add_sub_cancel_left, Nat.add_sub_cancel_left]
  exact forall₂_congr fun k _ => eq_comm

theorem equal_self {v v' : ℕ → p.Word} {x y : ℕ} : p.equal v v' x x y = true := by
  rw [equal_iff, Nat.sub_self]
  exact fun k hk => absurd hk k.not_lt_zero

theorem add_mod_eq {n i k : ℕ} (hi : i < n) (hk : k < n) :
    (i + k) % n = if i + k < n then i + k else i + k - n := by
  split
  next h => exact Nat.mod_eq_of_lt h
  next h => rw [Nat.mod_eq_sub_mod (Nat.not_lt.mp h), Nat.mod_eq_of_lt (by omega)]

/-- The rotated arrays are compared in three pieces. -/
theorem pieces_iff {v v' : ℕ → p.Word} {n x y : ℕ} (hxy : x ≤ y) (hy : y < n) :
    (p.equal v v' x (x + (n - y)) y && p.equal v v' (x + (n - y)) n 0 &&
      p.equal v v' 0 x (n - (x + (n - y)))) = true ↔ ∀ k < n, v ((x + k) % n) = v' ((y + k) % n) := by
  rw [Bool.and_eq_true, Bool.and_eq_true, equal_iff, equal_iff, equal_iff]
  constructor
  · rintro ⟨⟨h₁, h₂⟩, h₃⟩ k hk
    rw [add_mod_eq (hxy.trans_lt hy) hk, add_mod_eq hy hk]
    by_cases hky : y + k < n
    · rw [if_pos (by omega), if_pos hky]
      exact h₁ k (by omega)
    · rw [if_neg hky]
      by_cases hkx : x + k < n
      · have h := h₂ (y + k - n) (by omega)
        rw [if_pos hkx]
        rwa [Nat.zero_add, show x + (n - y) + (y + k - n) = x + k by omega] at h
      · have h := h₃ (x + k - n) (by omega)
        rw [if_neg hkx]
        rwa [Nat.zero_add, show n - (x + (n - y)) + (x + k - n) = y + k - n by omega] at h
  · intro h
    refine ⟨⟨fun k hk => ?_, fun k hk => ?_⟩, fun k hk => ?_⟩
    · have hk' := h k (by omega)
      rwa [add_mod_eq (by omega) (by omega), add_mod_eq hy (by omega), if_pos (by omega),
        if_pos (by omega)] at hk'
    · have hk' := h (n - y + k) (by omega)
      rwa [add_mod_eq (by omega) (by omega), add_mod_eq hy (by omega), if_pos (by omega),
        if_neg (by omega), ← Nat.add_assoc, show y + (n - y + k) - n = 0 + k by omega] at hk'
    · have hk' := h (n - x + k) (by omega)
      rwa [add_mod_eq (by omega) (by omega), add_mod_eq hy (by omega), if_neg (by omega),
        if_neg (by omega), show x + (n - x + k) - n = 0 + k by omega,
        show y + (n - x + k) - n = n - (x + (n - y)) + k by omega] at hk'

/-- Engines are equal if they have the same words, beginning with the oldest. -/
theorem eq_iff_window (h : e.pos < p.n) (h' : e'.pos < p.n) :
    p.eq e e' = true ↔ ∀ k < p.n, e.window p.n k = e'.window p.n k := by
  unfold eq
  split
  next hpos =>
    rw [equal_iff]
    constructor
    · intro hall k hk
      have hk' := hall ((e.pos + k) % p.n) (Nat.mod_lt _ n_pos)
      rw [Nat.zero_add] at hk'
      rw [RingBuffer.window, RingBuffer.window, ← hpos]
      exact hk'
    · intro hall k hk
      have hk' := hall ((p.n - e.pos + k) % p.n) (Nat.mod_lt _ n_pos)
      rw [RingBuffer.window, RingBuffer.window, ← hpos, Nat.add_mod_mod, ← Nat.add_assoc,
        Nat.add_sub_cancel' h.le, Nat.add_mod_left] at hk'
      rwa [Nat.zero_add, ← Nat.mod_eq_of_lt (show k < p.n from hk)]
  next hpos =>
    split
    next hzero =>
      by_cases hfirst : e.pos = 0
      · have hmin : min (p.n - e.pos) (p.n - e'.pos) = p.n - e'.pos := by omega
        have hle : e.pos ≤ e'.pos := hfirst.le.trans (Nat.zero_le _)
        refine Iff.trans ?_ (pieces_iff hle h')
        simp only [hmin, if_pos hfirst]
        rw [hfirst, Nat.zero_add, equal_self, Bool.and_true]
      · have hsecond : e'.pos = 0 := hzero.resolve_left hfirst
        have hmin : min (p.n - e.pos) (p.n - e'.pos) = p.n - e.pos := by omega
        have hle : e'.pos ≤ e.pos := hsecond.le.trans (Nat.zero_le _)
        have hlast : p.equal e.words e'.words 0 (p.n - (p.n - e.pos)) (p.n - e.pos) =
            p.equal e'.words e.words (p.n - e.pos) p.n 0 := by
          rw [← Nat.zero_add (p.n - (p.n - e.pos)), equal_comm,
            Nat.add_sub_cancel' (Nat.sub_le ..)]
        refine Iff.trans ?_ ((pieces_iff hle h).trans (forall₂_congr fun k _ => eq_comm))
        simp only [hmin, if_neg hfirst]
        rw [hlast, equal_comm, hsecond, Nat.zero_add, equal_self, Bool.and_true]
    next hzero =>
      split
      next hlt => exact pieces_iff hlt.le h'
      next hlt =>
        rw [pieces_iff (Nat.not_lt.mp hlt) h]
        exact forall₂_congr fun k _ => eq_comm

/-! ## Tempering and twisting -/

theorem getLsbD_low {digits count : ℕ} (h : count ≤ digits) (i : ℕ) :
    (low digits count).getLsbD i = decide (i < count) := by
  unfold low
  split
  next heq =>
    rw [BitVec.getLsbD_not, BitVec.getLsbD_zero, Bool.not_false, Bool.and_true, heq]
  next hne =>
    have hlt : 2 ^ count < 2 ^ digits := Nat.pow_lt_pow_right Nat.one_lt_two (by omega)
    have hone : 1 < 2 ^ digits := Nat.one_lt_two_pow (by omega)
    have hnat : ((1#(digits) <<< count) - 1#(digits)).toNat = 2 ^ count - 1 := by
      have hpos := Nat.two_pow_pos count
      rw [BitVec.toNat_sub, BitVec.toNat_shiftLeft, BitVec.toNat_ofNat, Nat.mod_eq_of_lt hone,
        Nat.one_shiftLeft, Nat.mod_eq_of_lt hlt,
        show 2 ^ digits - 1 + 2 ^ count = 2 ^ count - 1 + 2 ^ digits by omega, Nat.add_mod_right,
        Nat.mod_eq_of_lt (by omega)]
    rw [BitVec.getLsbD, hnat, Nat.testBit_two_pow_sub_one]

theorem rshift_zero (count : ℕ) : p.rshift count 0#(p.digits) = 0#(p.digits) := by
  unfold rshift
  split <;> simp

theorem rshift_eq_of_agree {count : ℕ} (hcount : 0 < count) {x y : p.Word} {i : ℕ}
    (h : ∀ j, i < j → x.getLsbD j = y.getLsbD j) :
    (p.rshift count x).getLsbD i = (p.rshift count y).getLsbD i := by
  unfold rshift
  split
  next => rw [BitVec.getLsbD_ushiftRight, BitVec.getLsbD_ushiftRight, h _ (by omega)]
  next => rfl

theorem lshift_eq_of_agree {count : ℕ} (hcount : 0 < count) {x y : p.Word} {i : ℕ}
    (h : ∀ j < i, x.getLsbD j = y.getLsbD j) :
    (p.lshift count x).getLsbD i = (p.lshift count y).getLsbD i := by
  unfold lshift
  split
  next =>
    rw [BitVec.getLsbD_and, BitVec.getLsbD_and, BitVec.getLsbD_shiftLeft, BitVec.getLsbD_shiftLeft]
    by_cases hi : i < count
    · rw [decide_eq_true hi]
      simp
    · rw [h (i - count) (by omega)]
  next => rfl

/-- Parameters like those of `mt19937` and `mt19937_64`. -/
structure Standard (p : Twister) : Prop where
  two_le_m : 2 ≤ p.m
  m_lt : p.m < p.n
  r_lt : p.r < p.w
  top : p.a.getLsbD (p.w - 1) = true
  shifts_pos : 0 < p.u ∧ 0 < p.s ∧ 0 < p.t ∧ 0 < p.l

/-- No number comes from two words. -/
theorem temper_injective (hp : p.Standard) : Function.Injective p.temper := by
  obtain ⟨hu, hs, ht, hl⟩ := hp.shifts_pos
  have hright : ∀ {count : ℕ} (v : p.Word), 0 < count →
      Function.Injective fun x => x ^^^ (p.rshift count x &&& v) := fun v hcount =>
    injective_of_upper fun x y i h => by
      rw [BitVec.getLsbD_and, BitVec.getLsbD_and, rshift_eq_of_agree hcount h]
  have hleft : ∀ {count : ℕ} (v : p.Word), 0 < count →
      Function.Injective fun x => x ^^^ (p.lshift count x &&& v) := fun v hcount =>
    injective_of_lower fun x y i h => by
      rw [BitVec.getLsbD_and, BitVec.getLsbD_and, lshift_eq_of_agree hcount h]
  have hlast : Function.Injective fun x => x ^^^ p.rshift p.l x :=
    injective_of_upper fun x y i h => rshift_eq_of_agree hl h
  exact ((hlast.comp (hleft p.c ht)).comp (hleft p.b hs)).comp (hright p.d hu)

/-- Only the low `w` bits are used. -/
def Fits (x : p.Word) : Prop := ∀ i, p.w ≤ i → x.getLsbD i = false

theorem fits_and_max (x : p.Word) : Fits (x &&& p.max) := fun i hi => by
  rw [BitVec.getLsbD_and, max, getLsbD_low p.w_le, decide_eq_false (by omega), Bool.and_false]

theorem fits_a : Fits p.a := fun i hi => by
  have hmax : p.max.toNat < 2 ^ p.w := Nat.lt_pow_two_of_testBit _ fun j hj => by
    rw [← BitVec.getLsbD, max, getLsbD_low p.w_le, decide_eq_false (by omega)]
  have hlt : p.a.toNat < 2 ^ i := (BitVec.le_def.mp p.a_le).trans_lt
    (hmax.trans_le (Nat.pow_le_pow_right Nat.two_pos hi))
  exact Nat.testBit_lt_two_pow hlt

theorem Fits.xor {x y : p.Word} (hx : Fits x) (hy : Fits y) : Fits (x ^^^ y) := fun i hi => by
  rw [BitVec.getLsbD_xor, hx i hi, hy i hi]
  rfl

/-- The high bits of the oldest word and the low ones of the next. -/
def join (p : Twister) (oldest second : p.Word) : p.Word := (oldest &&& ~~~p.mask) ||| (second &&& p.mask)

theorem getLsbD_join {x y : p.Word} (i : ℕ) :
    (p.join x y).getLsbD i = if i < p.r then y.getLsbD i else x.getLsbD i := by
  have hmask : p.mask.getLsbD i = decide (i < p.r) := getLsbD_low (p.r_le.trans p.w_le) i
  rw [join, BitVec.getLsbD_or, BitVec.getLsbD_and, BitVec.getLsbD_and, BitVec.getLsbD_not, hmask]
  by_cases hi : i < p.r
  · simp [hi]
  · by_cases hd : i < p.digits
    · simp [hi, hd]
    · simp [hi, hd, BitVec.getLsbD_of_ge x i (Nat.not_lt.mp hd)]

theorem mul_bit_eq (a y : p.Word) : a * (y &&& 1#(p.digits)) = if y.getLsbD 0 then a else 0#(p.digits) := by
  have hbit : y &&& 1#(p.digits) = if y.getLsbD 0 then 1#(p.digits) else 0#(p.digits) := by
    ext i hi
    cases i with
    | zero => cases hy : y.getLsbD 0 <;> simp [← BitVec.getLsbD_eq_getElem, hy]
    | succ i => cases y.getLsbD 0 <;> simp
  rw [hbit]
  split
  · exact BitVec.mul_one a
  · exact BitVec.mul_zero

theorem getLsbD_twist (x y : p.Word) (i : ℕ) : (p.twist x y).getLsbD i =
    ((p.join x y).getLsbD (i + 1) ^^ ((p.join x y).getLsbD 0 && p.a.getLsbD i)) := by
  have hshift : p.rshift 1 (p.join x y) = p.join x y >>> 1 :=
    if_pos (Nat.lt_of_lt_of_le Nat.one_lt_two (p.two_le.trans p.w_le))
  change (p.rshift 1 (p.join x y) ^^^ p.a * (p.join x y &&& 1#(p.digits))).getLsbD i = _
  rw [hshift, mul_bit_eq, BitVec.getLsbD_xor, BitVec.getLsbD_ushiftRight, Nat.add_comm 1 i]
  cases (p.join x y).getLsbD 0 <;> simp

theorem Fits.join {x y : p.Word} (hx : Fits x) (hy : Fits y) : Fits (p.join x y) := fun i hi => by
  rw [getLsbD_join, hx i hi, hy i hi, ite_self]

theorem Fits.twist {x y : p.Word} (hx : Fits x) (hy : Fits y) : Fits (p.twist x y) := fun i hi => by
  rw [getLsbD_twist, hx.join hy _ (Nat.le_succ_of_le hi), fits_a i hi, Bool.and_false]
  rfl

/-- The two words take the same high bits from the first and the same low bits from the second. -/
def Joined (x y x' y' : p.Word) : Prop := x &&& ~~~p.mask = x' &&& ~~~p.mask ∧ y &&& p.mask = y' &&& p.mask

theorem joined_iff {x y x' y' : p.Word} : Joined x y x' y' ↔ p.join x y = p.join x' y' := by
  have hmask : ∀ i, p.mask.getLsbD i = decide (i < p.r) := getLsbD_low (p.r_le.trans p.w_le)
  constructor
  · rintro ⟨hx, hy⟩
    rw [Twister.join, Twister.join, hx, hy]
  · intro h
    have hbit := fun i => congrArg (BitVec.getLsbD · i) h
    simp only [getLsbD_join] at hbit
    constructor
    · refine BitVec.eq_of_getLsbD_eq fun i hi => ?_
      have hi' := hbit i
      rw [BitVec.getLsbD_and, BitVec.getLsbD_and, BitVec.getLsbD_not, hmask]
      by_cases hr : i < p.r
      · simp [hr]
      · rw [if_neg hr, if_neg hr] at hi'
        rw [hi']
    · refine BitVec.eq_of_getLsbD_eq fun i hi => ?_
      have hi' := hbit i
      rw [BitVec.getLsbD_and, BitVec.getLsbD_and, hmask]
      by_cases hr : i < p.r
      · rw [if_pos hr, if_pos hr] at hi'
        rw [hi']
      · simp [hr]

theorem eq_of_masked {x y : p.Word} (h : x &&& ~~~p.mask = y &&& ~~~p.mask)
    (h' : x &&& p.mask = y &&& p.mask) : x = y := by
  have hsplit : ∀ v : p.Word, v = (v &&& ~~~p.mask) ||| (v &&& p.mask) := fun v => by
    rw [← BitVec.and_or_distrib_left, BitVec.or_comm, BitVec.or_not_self, BitVec.and_allOnes]
  rw [hsplit x, hsplit y, h, h']

/-- The highest used bit of the new word tells whether `a` was added, for the shift left it clear. -/
theorem twist_eq_iff (hp : p.Standard) {x y x' y' : p.Word} (hx : Fits x) (hy : Fits y) (hx' : Fits x')
    (hy' : Fits y') : p.twist x y = p.twist x' y' ↔ Joined x y x' y' := by
  rw [joined_iff]
  constructor
  · intro h
    have hbit := fun i => congrArg (BitVec.getLsbD · i) h
    simp only [getLsbD_twist] at hbit
    have hw : p.w - 1 + 1 = p.w := Nat.sub_add_cancel (Nat.one_lt_two.le.trans p.two_le)
    have hzero : (p.join x y).getLsbD 0 = (p.join x' y').getLsbD 0 := by
      have htop := hbit (p.w - 1)
      rwa [hw, hx.join hy _ le_rfl, hx'.join hy' _ le_rfl, hp.top, Bool.and_true, Bool.and_true,
        Bool.false_xor, Bool.false_xor] at htop
    refine BitVec.eq_of_getLsbD_eq fun i _ => ?_
    cases i with
    | zero => exact hzero
    | succ i =>
        have hi := hbit i
        rwa [hzero, Bool.xor_left_inj] at hi
  · intro h
    exact congrArg (fun y => p.rshift 1 y ^^^ p.a * (y &&& 1#(p.digits))) h

/-! ## Two engines -/

/-- The ring of an engine whose words fit. -/
structure Valid (e : p.Engine) : Prop where
  pos_lt : e.pos < p.n
  fits : ∀ k < p.n, Fits (e.words k)

theorem Valid.words (h : Valid e) (t : ℕ) : Fits (p.words e t) := by
  induction t using Nat.strongRecOn with
  | ind t ih =>
      by_cases ht : t < p.n
      · rw [words_of_lt ht]
        exact h.fits _ (Nat.mod_lt _ n_pos)
      · obtain ⟨s, rfl⟩ : ∃ s, t = s + p.n := ⟨t - p.n, by omega⟩
        have hlt : ∀ k, s + k % p.n < s + p.n := fun k => Nat.add_lt_add_left (Nat.mod_lt k n_pos) s
        rw [isSequence_words]
        exact (ih _ (hlt _)).xor ((ih _ (hlt _)).twist (ih _ (hlt _)))

section

variable {x y : ℕ → p.Word} (hp : p.Standard) (hx : IsSequence p.n p.nextWord x)
  (hy : IsSequence p.n p.nextWord y) (hfx : ∀ t, Fits (x t)) (hfy : ∀ t, Fits (y t))

include hp hx in
theorem IsSequence.eq (t : ℕ) : x (t + p.n) = x (t + p.m) ^^^ p.twist (x t) (x (t + 1)) := by
  rw [hx t, nextWord, Nat.mod_eq_of_lt hp.m_lt, Nat.zero_mod,
    Nat.mod_eq_of_lt (Nat.one_lt_two.trans_le hp.two_le_m |>.trans hp.m_lt), Nat.add_zero]

include hp hx hy hfx hfy in
/-- Two words are known once the words computed from them are. -/
theorem joined_of_later {t : ℕ} (h : ∀ q, t + 2 ≤ q → x q = y q) :
    Joined (x t) (x (t + 1)) (y t) (y (t + 1)) := by
  have hm := hp.two_le_m
  have hn := hp.m_lt
  have heq := h (t + p.n) (by omega)
  rw [IsSequence.eq hp hx, IsSequence.eq hp hy, h (t + p.m) (by omega)] at heq
  rw [← twist_eq_iff hp (hfx _) (hfx _) (hfy _) (hfy _)]
  exact (BitVec.xor_right_inj _).mp heq

include hp hx hy hfx hfy in
/-- Sequences that agree from some point on agree from the start, but for the low bits of the first
word. -/
theorem agree_before {T : ℕ} (h : ∀ q, T ≤ q → x q = y q) :
    (∀ q, 1 ≤ q → x q = y q) ∧ x 0 &&& ~~~p.mask = y 0 &&& ~~~p.mask := by
  have hall : ∀ q, 1 ≤ q → x q = y q := by
    induction T with
    | zero => exact fun q _ => h q q.zero_le
    | succ T ih =>
        cases T with
        | zero => exact h
        | succ T =>
            refine ih fun q hq => ?_
            rcases hq.eq_or_lt with rfl | hlt
            · have hjoined := joined_of_later hp hx hy hfx hfy (t := T + 1) fun q hq => h q (by omega)
              exact eq_of_masked hjoined.1 (joined_of_later hp hx hy hfx hfy h).2
            · exact h q hlt
  exact ⟨hall, (joined_of_later hp hx hy hfx hfy fun q hq => hall q (by omega)).1⟩

end

/-- The engines only differ in bits that no number depends on. -/
def Same (e e' : p.Engine) : Prop :=
  e.window p.n 0 &&& ~~~p.mask = e'.window p.n 0 &&& ~~~p.mask ∧
    ∀ k < p.n, 1 ≤ k → e.window p.n k = e'.window p.n k

theorem Same.words (hp : p.Standard) (h : Same e e') {t : ℕ} (ht : 1 ≤ t) : p.words e t = p.words e' t := by
  have hm := hp.two_le_m
  have hn := hp.m_lt
  have hlow : ∀ k < p.n, 1 ≤ k → p.words e k = p.words e' k := fun k hk hk₁ => by
    rw [words_of_lt hk, words_of_lt hk, h.2 k hk hk₁]
  refine isSequence_words.agree isSequence_words n_pos (fun k hk => ?_) ht
  by_cases hlast : 1 + k = p.n
  · have hnew : ∀ e : p.Engine, p.words e p.n = p.words e p.m ^^^ p.twist (p.words e 0) (p.words e 1) :=
      fun e => by simpa using IsSequence.eq hp (isSequence_words (e := e)) 0
    have htwist : p.twist (p.words e 0) (p.words e 1) = p.twist (p.words e' 0) (p.words e' 1) := by
      rw [hlow 1 (by omega) le_rfl, words_of_lt n_pos, words_of_lt n_pos]
      unfold twist
      rw [h.1]
    rw [hlast, hnew, hnew, htwist, hlow p.m hn (by omega)]
  · exact hlow _ (by omega) (Nat.le_add_right 1 k)

theorem same_of_outputs (hp : p.Standard) (he : Valid e) (he' : Valid e')
    (h : ∀ t < p.n, p.output e t = p.output e' t) : Same e e' := by
  have hlate : ∀ q, p.n ≤ q → p.words e q = p.words e' q := fun q hq => by
    refine isSequence_words.agree isSequence_words n_pos (fun k hk => ?_) hq
    have hk' := h k hk
    rw [output_eq_words he.pos_lt, output_eq_words he'.pos_lt] at hk'
    rw [Nat.add_comm]
    exact temper_injective hp hk'
  obtain ⟨hall, hzero⟩ :=
    agree_before hp isSequence_words isSequence_words he.words he'.words hlate
  rw [words_of_lt n_pos, words_of_lt n_pos] at hzero
  refine ⟨hzero, fun k hk hk₁ => ?_⟩
  rw [← words_of_lt hk, ← words_of_lt hk, hall k hk₁]

/-- `operator==` compares the numbers that follow, and besides bits that no number depends on. -/
theorem eq_iff_outputs (hp : p.Standard) (he : Valid e) (he' : Valid e') : p.eq e e' = true ↔
    (∀ t, p.output e t = p.output e' t) ∧
      e.window p.n 0 &&& p.mask = e'.window p.n 0 &&& p.mask := by
  have hm := hp.two_le_m
  have hn := hp.m_lt
  rw [eq_iff_window he.pos_lt he'.pos_lt]
  constructor
  · intro h
    have hsame : Same e e' := ⟨by rw [h 0 n_pos], fun k hk _ => h k hk⟩
    refine ⟨fun t => ?_, by rw [h 0 n_pos]⟩
    rw [output_eq_words he.pos_lt, output_eq_words he'.pos_lt, hsame.words hp (by omega)]
  · rintro ⟨h, hlow⟩ k hk
    have hsame := same_of_outputs hp he he' fun t _ => h t
    cases k with
    | zero => exact eq_of_masked hsame.1 hlow
    | succ k => exact hsame.2 _ hk (Nat.le_add_left 1 k)

/-- Where `n` numbers in a row are the same, all that follow are. -/
theorem outputs_agree (hp : p.Standard) (he : e.pos < p.n) (he' : e'.pos < p.n) {T T' : ℕ}
    (h : ∀ t < p.n, p.output e (T + t) = p.output e' (T' + t)) (t : ℕ) :
    p.output e (T + t) = p.output e' (T' + t) := by
  have hx := (isSequence_words (e := e)).shift T
  have hy := (isSequence_words (e := e')).shift T'
  have hlate : ∀ q, p.n ≤ q → p.words e (T + q) = p.words e' (T' + q) := fun q hq => by
    refine hx.agree hy n_pos (fun k hk => ?_) hq
    have hk' := h k hk
    rw [output_eq_words he, output_eq_words he'] at hk'
    rw [Nat.add_comm p.n, ← Nat.add_assoc, ← Nat.add_assoc]
    exact temper_injective hp hk'
  rw [output_eq_words he, output_eq_words he', Nat.add_assoc, Nat.add_assoc, hlate _ (Nat.le_add_left p.n t)]

/-! ## Seeds -/

inductive Seeded (p : Twister) : p.Engine → Prop
  | number (sd : p.Word) : Seeded p (p.seed sd)
  | sequence (ar : ℕ → BitVec 32) : Seeded p (p.seedSequence ar)

theorem fits_sequenceWord (ar : ℕ → BitVec 32) (i : ℕ) : Fits (p.sequenceWord ar i) := by
  unfold sequenceWord
  split <;> exact fits_and_max _

theorem Seeded.valid (h : p.Seeded e) : Valid e := by
  cases h with
  | number sd =>
      refine ⟨n_pos, fun k _ => ?_⟩
      cases k <;> exact fits_and_max _
  | sequence ar =>
      refine ⟨n_pos, fun k _ => ?_⟩
      unfold seedSequence
      split
      next =>
        cases k with
        | zero =>
            intro i hi
            have hw := p.two_le
            change (Function.update (p.sequenceWord ar) 0 (1#(p.digits) <<< (p.w - 1)) 0).getLsbD i = false
            rw [Function.update_self, BitVec.getLsbD_shiftLeft]
            simp
            omega
        | succ k => exact fits_sequenceWord ar (k + 1)
      next => exact fits_sequenceWord ar k

/-- No seed leads to the state that stays at zero. -/
theorem Seeded.ne_zero (hp : p.Standard) (h : p.Seeded e) (hzero : e.window p.n 0 &&& ~~~p.mask = 0#(p.digits))
    (hrest : ∀ k < p.n, 1 ≤ k → e.window p.n k = 0#(p.digits)) : False := by
  have hm := hp.two_le_m
  have hn := hp.m_lt
  have hmask : ∀ i, p.mask.getLsbD i = decide (i < p.r) := getLsbD_low (p.r_le.trans p.w_le)
  have hwindow : ∀ v : ℕ → p.Word, ∀ k < p.n, (RingBuffer.mk v 0).window p.n k = v k := fun v k hk => by
    rw [RingBuffer.window, Nat.zero_add, Nat.mod_eq_of_lt hk]
  cases h with
  | number sd =>
      have h₁ : p.seedWords sd 1 = 0#(p.digits) :=
        (hwindow _ 1 (by omega)).symm.trans (hrest 1 (by omega) le_rfl)
      have h₂ : p.seedWords sd 2 = 0#(p.digits) :=
        (hwindow _ 2 (by omega)).symm.trans (hrest 2 (by omega) Nat.one_lt_two.le)
      have hbit : (p.seedWords sd 2).getLsbD 1 = true := by
        rw [seedWords, h₁]
        have hw := p.two_le
        have hd := p.w_le
        have htwo : (BitVec.ofNat p.digits (1 + 1)).getLsbD 1 = true := by
          rw [BitVec.getLsbD_ofNat, decide_eq_true (by omega)]
          rfl
        rw [rshift_zero, BitVec.xor_zero, BitVec.mul_zero, BitVec.zero_add, BitVec.getLsbD_and, htwo, max,
          getLsbD_low p.w_le, decide_eq_true (by omega)]
        rfl
      rw [h₂] at hbit
      simp at hbit
  | sequence ar =>
      unfold seedSequence at hzero hrest
      split at hzero
      next hcond =>
        rw [hwindow _ 0 n_pos, Function.update_self] at hzero
        have hbit := congrArg (BitVec.getLsbD · (p.w - 1)) hzero
        have hw := p.two_le
        have hd := p.w_le
        have hr := hp.r_lt
        simp only [BitVec.getLsbD_and, BitVec.getLsbD_not, BitVec.getLsbD_shiftLeft, hmask] at hbit
        simp at hbit
        omega
      next hcond =>
        rw [hwindow _ 0 n_pos] at hzero
        refine hcond ⟨hzero, fun k hk hk₁ => ?_⟩
        have hk' := hrest k hk hk₁
        rwa [if_neg hcond, hwindow _ k hk] at hk'

/-- Among any `n` numbers in a row from a seeded engine one is not zero. -/
theorem exists_output_ne_zero (hp : p.Standard) (h : p.Seeded e) (t : ℕ) :
    ∃ k < p.n, p.output e (t + k) ≠ 0 := by
  by_contra hnone
  have hzero : IsSequence p.n p.nextWord fun _ => 0#(p.digits) := fun s => by
    simp [nextWord, twist, rshift_zero]
  have htemper : p.temper 0#(p.digits) = 0#(p.digits) := by
    simp [temper, rshift, lshift]
  have hlate : ∀ q, t + p.n ≤ q → p.words e q = 0#(p.digits) := fun q hq => by
    refine isSequence_words.agree hzero n_pos (fun k hk => temper_injective hp ?_) hq
    rw [htemper, Nat.add_right_comm, ← output_eq_words h.valid.pos_lt]
    exact by_contra fun hne => hnone ⟨k, hk, hne⟩
  have hfits : ∀ s : ℕ, Fits ((fun _ => 0#(p.digits) : ℕ → p.Word) s) := fun _ _ _ => BitVec.getLsbD_zero
  obtain ⟨hall, hfirst⟩ := agree_before hp isSequence_words hzero h.valid.words hfits hlate
  rw [words_of_lt n_pos, BitVec.zero_and] at hfirst
  exact h.ne_zero hp hfirst fun k hk hk₁ => (words_of_lt hk).symm.trans (hall k hk₁)

/-! ## An instance -/

/-- `mt19937_64`. -/
def mt19937_64 : Twister where
  digits := 64
  w := 64
  n := 312
  m := 156
  r := 31
  a := 0xB5026F5AA96619E9
  u := 29
  d := 0x5555555555555555
  s := 17
  b := 0x71D67FFFEDA60000
  t := 37
  c := 0xFFF7EEE000000000
  l := 43
  f := 6364136223846793005
  m_pos := by decide
  m_le := by decide
  w_le := by decide
  two_le := by decide
  r_le := by decide
  shifts_le := by decide
  a_le := by decide
  masks_le := by decide

theorem standard_mt19937_64 : mt19937_64.Standard where
  two_le_m := by decide
  m_lt := by decide
  r_lt := by decide
  top := by decide
  shifts_pos := by decide

theorem output_eq_words_mt : mt19937_64.output (mt19937_64.seed 5489) 1 =
    mt19937_64.temper (mt19937_64.words (mt19937_64.seed 5489) (1 + 312)) :=
  output_eq_words (by decide) 1

theorem eq_iff_outputs_mt : mt19937_64.eq (mt19937_64.seed 1) (mt19937_64.seed 2) = true ↔
    (∀ t, mt19937_64.output (mt19937_64.seed 1) t = mt19937_64.output (mt19937_64.seed 2) t) ∧
      (mt19937_64.seed 1).window 312 0 &&& mt19937_64.mask =
        (mt19937_64.seed 2).window 312 0 &&& mt19937_64.mask :=
  eq_iff_outputs standard_mt19937_64 (Seeded.number 1).valid (Seeded.number 2).valid

theorem outputs_agree_mt :
    mt19937_64.output (mt19937_64.after (mt19937_64.seed 5489) 1) (0 + 400) =
      mt19937_64.output (mt19937_64.seed 5489) (1 + 400) := by
  refine outputs_agree standard_mt19937_64 (Nat.mod_lt _ n_pos) (by decide) (fun t _ => ?_) 400
  rw [output, output, after, after, after, ← Function.iterate_add_apply, Nat.zero_add, Nat.add_comm 1 t]

theorem exists_output_ne_zero_mt :
    ∃ k < 312, mt19937_64.output (mt19937_64.seed 0) (0 + k) ≠ 0 :=
  exists_output_ne_zero standard_mt19937_64 (.number 0) 0

end Twister

end Ilobilix.Random
