import Ilobilix.Foundation.Splice

/-!
# `libc/string.cpp`

`memcpy` and `memset` are in the source twice: with words, for builds with
`ILOBILIX_MAX_UACPI_POINTS`, and byte by byte. The functions with words go through the range in
blocks of 64 bytes and then finish with at most one block each of 32, 16, 8, 4, 2 and 1 bytes. An
address is a natural number, since no object goes past the last address.

Every loop here that goes up fills its range as `Ascends` says; `blocks_rule` is the cascade of block
sizes, for both functions that have it.
-/

namespace Ilobilix.Libc

/-! ## The functions with words -/

/-- `alias_load` of a type with `size` bytes, with the pointer behind it. -/
def aliasLoad (size : ℕ) (mem : ℕ → UInt8) (p : ℕ) : ℕ × ℕ := (readLE mem size p, p + size)

def aliasStore (size : ℕ) (mem : ℕ → UInt8) (p value : ℕ) : (ℕ → UInt8) × ℕ :=
  (storeLE mem size p value, p + size)

/-- `count` loads, one behind the other. -/
def aliasLoads (size : ℕ) (mem : ℕ → UInt8) : (count p : ℕ) → List ℕ × ℕ
  | 0, p => ([], p)
  | count + 1, p =>
      let (w, p) := aliasLoad size mem p
      let (ws, p) := aliasLoads size mem count p
      (w :: ws, p)

def aliasStores (size : ℕ) : List ℕ → (ℕ → UInt8) → ℕ → (ℕ → UInt8) × ℕ
  | [], mem, p => (mem, p)
  | w :: ws, mem, p =>
      let (mem, p) := aliasStore size mem p w
      aliasStores size ws mem p

section Blocks

variable {σ : Type*} (left : σ → ℕ) (block : (size count : ℕ) → σ → σ) (last : σ → σ)

/-- `while (n >= 8 * 8)`. Every block takes 64 bytes off `n`, so that `n` turns are enough. -/
def whileBlock : ℕ → σ → σ
  | 0, s => s
  | fuel + 1, s => if 8 * 8 ≤ left s then whileBlock fuel (block 8 8 s) else s

def ifBlock (size count : ℕ) (s : σ) : σ :=
  if count * size ≤ left s then block size count s else s

/-- The blocks of `memcpy` and `memset`. `left` is `n`, and `block` does `count` words of `size`
bytes. -/
def blocks (s : σ) : σ :=
  let s := whileBlock left block (left s) s
  let s := ifBlock left block 8 4 s
  let s := ifBlock left block 8 2 s
  let s := ifBlock left block 8 1 s
  let s := ifBlock left block 4 1 s
  let s := ifBlock left block 2 1 s
  if left s ≠ 0 then last s else s

end Blocks

namespace Words

/-- The variables of `memcpy`. -/
structure Copy where
  mem : ℕ → UInt8
  curDest : ℕ
  curSrc : ℕ
  n : ℕ

/-- The words are all loaded before the first one is stored. -/
def Copy.block (size count : ℕ) (s : Copy) : Copy :=
  let (ws, curSrc) := aliasLoads size s.mem count s.curSrc
  let (mem, curDest) := aliasStores size ws s.mem s.curDest
  { mem, curDest, curSrc, n := s.n - count * size }

def Copy.last (s : Copy) : Copy :=
  { s with mem := Function.update s.mem s.curDest (s.mem s.curSrc) }

def memcpy (mem : ℕ → UInt8) (dest src n : ℕ) : (ℕ → UInt8) × ℕ :=
  ((blocks Copy.n Copy.block Copy.last { mem, curDest := dest, curSrc := src, n }).mem, dest)

/-- The variables of `memset`. -/
structure Fill where
  mem : ℕ → UInt8
  curDest : ℕ
  n : ℕ

/-- `while (n && (cur_dest & 7))`. -/
def Fill.align (byte : UInt8) : ℕ → Fill → Fill
  | 0, s => s
  | fuel + 1, s =>
      if s.n ≠ 0 ∧ s.curDest &&& 7 ≠ 0 then
        Fill.align byte fuel
          { mem := Function.update s.mem s.curDest byte, curDest := s.curDest + 1, n := s.n - 1 }
      else s

def pattern64 (byte : UInt8) : ℕ :=
  byte.toNat ||| byte.toNat <<< 8 ||| byte.toNat <<< 16 ||| byte.toNat <<< 24 |||
    byte.toNat <<< 32 ||| byte.toNat <<< 40 ||| byte.toNat <<< 48 ||| byte.toNat <<< 56

def pattern32 (byte : UInt8) : ℕ :=
  byte.toNat ||| byte.toNat <<< 8 ||| byte.toNat <<< 16 ||| byte.toNat <<< 24

def pattern16 (byte : UInt8) : ℕ := byte.toNat ||| byte.toNat <<< 8

/-- The pattern for words of `size` bytes. -/
def pattern (byte : UInt8) (size : ℕ) : ℕ :=
  if size = 8 then pattern64 byte else if size = 4 then pattern32 byte else pattern16 byte

def Fill.block (byte : UInt8) (size count : ℕ) (s : Fill) : Fill :=
  let (mem, curDest) := aliasStores size (List.replicate count (pattern byte size)) s.mem s.curDest
  { mem, curDest, n := s.n - count * size }

def Fill.last (byte : UInt8) (s : Fill) : Fill :=
  { s with mem := Function.update s.mem s.curDest byte }

def memset (mem : ℕ → UInt8) (dest : ℕ) (val : Int32) (n : ℕ) : (ℕ → UInt8) × ℕ :=
  let byte := val.toUInt32.toUInt8
  let s := Fill.align byte n { mem, curDest := dest, n }
  ((blocks Fill.n (Fill.block byte) (Fill.last byte) s).mem, dest)

end Words

/-! ## The functions with bytes -/

/-- `for (i = 0; i < len; i++) pdest[i] = ...`, with `len - i` turns left. -/
def forUp (value : (ℕ → UInt8) → ℕ → UInt8) (dest : ℕ) : (left i : ℕ) → (ℕ → UInt8) → ℕ → UInt8
  | 0, _, mem => mem
  | left + 1, i, mem => forUp value dest left (i + 1) (Function.update mem (dest + i) (value mem i))

/-- `for (i = len; i > 0; i--) pdest[i - 1] = psrc[i - 1]`. -/
def forDown (dest src : ℕ) : (i : ℕ) → (ℕ → UInt8) → ℕ → UInt8
  | 0, mem => mem
  | i + 1, mem => forDown dest src i (Function.update mem (dest + i) (mem (src + i)))

namespace Bytes

def memcpy (mem : ℕ → UInt8) (dest src len : ℕ) : (ℕ → UInt8) × ℕ :=
  (forUp (fun mem i => mem (src + i)) dest len 0 mem, dest)

def memset (mem : ℕ → UInt8) (dest : ℕ) (ch : Int32) (len : ℕ) : (ℕ → UInt8) × ℕ :=
  (forUp (fun _ _ => ch.toUInt32.toUInt8) dest len 0 mem, dest)

end Bytes

def memmove (mem : ℕ → UInt8) (dest src len : ℕ) : (ℕ → UInt8) × ℕ :=
  if dest < src then (forUp (fun mem i => mem (src + i)) dest len 0 mem, dest)
  else if src < dest then (forDown dest src len mem, dest)
  else (mem, dest)

/-! ## The cascade of blocks -/

section Blocks

variable {σ : Type*} {left : σ → ℕ} {block : (size count : ℕ) → σ → σ} {last : σ → σ}
  {P : σ → Prop}

/-- A block that is inside the rest keeps the invariant and takes its bytes off the rest. -/
def Consumes (left : σ → ℕ) (block : (size count : ℕ) → σ → σ) (P : σ → Prop) : Prop :=
  ∀ size count s, size ∈ [8, 4, 2] → P s → count * size ≤ left s →
    P (block size count s) ∧ left (block size count s) = left s - count * size

theorem Consumes.whileBlock (h : Consumes left block P) {fuel : ℕ} {s : σ} (hs : P s)
    (hfuel : left s ≤ fuel) :
    P (whileBlock left block fuel s) ∧ left (whileBlock left block fuel s) < 8 * 8 := by
  induction fuel generalizing s with
  | zero => exact ⟨hs, by rw [Libc.whileBlock]; omega⟩
  | succ fuel ih =>
      by_cases hleft : 8 * 8 ≤ left s
      · obtain ⟨hblock, hrest⟩ := h 8 8 s (by simp) hs hleft
        rw [Libc.whileBlock, if_pos hleft]
        exact ih hblock (by omega)
      · rw [Libc.whileBlock, if_neg hleft]
        exact ⟨hs, by omega⟩

theorem Consumes.ifBlock (h : Consumes left block P) (size count : ℕ) {s : σ}
    (hsize : size ∈ [8, 4, 2]) (hs : P s ∧ left s < 2 * (count * size)) :
    P (ifBlock left block size count s) ∧ left (ifBlock left block size count s) < count * size := by
  by_cases hleft : count * size ≤ left s
  · obtain ⟨hblock, hrest⟩ := h size count s hsize hs.1 hleft
    rw [Libc.ifBlock, if_pos hleft]
    exact ⟨hblock, by omega⟩
  · rw [Libc.ifBlock, if_neg hleft]
    exact ⟨hs.1, by omega⟩

/-- The blocks take all of `n`, whatever it is. -/
theorem blocks_rule {Q : σ → Prop} (h : Consumes left block P)
    (hlast : ∀ s, P s → left s = 1 → Q (last s)) (hdone : ∀ s, P s → left s = 0 → Q s)
    {s : σ} (hs : P s) : Q (blocks left block last s) := by
  have h64 := h.whileBlock hs (Nat.le_refl _)
  have h32 := h.ifBlock 8 4 (by simp) h64
  have h16 := h.ifBlock 8 2 (by simp) h32
  have h8 := h.ifBlock 8 1 (by simp) h16
  have h4 := h.ifBlock 4 1 (by simp) h8
  have h2 := h.ifBlock 2 1 (by simp) h4
  unfold blocks
  dsimp only
  by_cases hone : left (ifBlock left block 2 1 (ifBlock left block 4 1 (ifBlock left block 8 1
      (ifBlock left block 8 2 (ifBlock left block 8 4 (whileBlock left block (left s) s)))))) = 0
  · rw [if_neg (not_not.mpr hone)]
    exact hdone _ h2.1 hone
  · rw [if_pos hone]
    exact hlast _ h2.1 (by omega)

end Blocks
/-! ## What a block does -/

theorem aliasLoads_eq (size : ℕ) (mem : ℕ → UInt8) (count p : ℕ) :
    aliasLoads size mem count p = (readWords mem size count p, p + count * size) := by
  induction count generalizing p with
  | zero => simp [aliasLoads, readWords]
  | succ count ih =>
      have hnext := ih (p + size)
      simp only [aliasLoads, aliasLoad, hnext, readWords]
      rw [Nat.succ_mul, Nat.add_assoc, Nat.add_comm size]

/-- Words that have been loaded from `q` are stored as the bytes behind `q`. -/
theorem aliasStores_readWords (size : ℕ) (mem mem' : ℕ → UInt8) (count p q : ℕ) :
    aliasStores size (readWords mem' size count q) mem p =
      (splice mem p (count * size) fun i => mem' (q + i), p + count * size) := by
  induction count generalizing mem p q with
  | zero => simp [readWords, aliasStores]
  | succ count ih =>
      have hsize : (count + 1) * size = size + count * size := by rw [Nat.succ_mul, Nat.add_comm]
      simp only [readWords, aliasStores, aliasStore, ih, storeLE_readLE, Nat.add_assoc q]
      rw [splice_append fun i => mem' (q + i), hsize, Nat.add_assoc]

theorem readWords_const (byte : UInt8) (size count q : ℕ) :
    readWords (fun _ => byte) size count q =
      List.replicate count (readLE (fun _ => byte) size 0) := by
  have hword (q : ℕ) : readLE (fun _ => byte) size q = readLE (fun _ => byte) size 0 := by
    induction size generalizing q with
    | zero => rfl
    | succ size ih => rw [readLE, readLE, ih (q + 1), ih (0 + 1)]
  induction count generalizing q with
  | zero => rfl
  | succ count ih => rw [readWords, ih, hword, List.replicate_succ]

/-- A pattern is the word in a range that holds `byte` everywhere. -/
theorem Words.pattern_eq (byte : UInt8) {size : ℕ} (hsize : size ∈ [8, 4, 2]) :
    pattern byte size = readLE (fun _ => byte) size 0 := by
  have hzero : readLE (fun _ => byte) 0 0 = 0 := rfl
  simp only [List.mem_cons, List.not_mem_nil, or_false] at hsize
  rcases hsize with rfl | rfl | rfl
  · simp [pattern, pattern64, readLE_or, hzero]
  · simp [pattern, pattern32, readLE_or, hzero]
  · simp [pattern, pattern16, readLE_or, hzero]

/-! ## The functions go up their range -/

section Runs

variable {mem : ℕ → UInt8} {dest src n k : ℕ}

namespace Words

/-- `k` bytes have been copied. -/
structure Copy.Reached (mem : ℕ → UInt8) (dest src n : ℕ) (s : Copy) (k : ℕ) : Prop where
  curDest : s.curDest = dest + k
  curSrc : s.curSrc = src + k
  left : k + s.n = n
  ascends : Ascends (fun mem i => mem (src + i)) dest mem k s.mem

theorem Copy.Reached.block {s : Copy} (h : Reached mem dest src n s k) {size count : ℕ}
    (hleft : count * size ≤ s.n) :
    Reached mem dest src n (s.block size count) (k + count * size) := by
  have hchunk := h.ascends.chunk (count * size)
  simp only [Copy.block, aliasLoads_eq, aliasStores_readWords]
  refine ⟨?_, ?_, ?_, ?_⟩
  · rw [h.curDest, Nat.add_assoc]
  · rw [h.curSrc, Nat.add_assoc]
  · have := h.left
    dsimp only
    omega
  · simpa only [h.curDest, h.curSrc, Nat.add_assoc] using hchunk

theorem Copy.consumes (mem : ℕ → UInt8) (dest src n : ℕ) :
    Consumes Copy.n Copy.block fun s => ∃ k, Copy.Reached mem dest src n s k := by
  rintro size count s - ⟨k, h⟩ hleft
  exact ⟨⟨_, h.block hleft⟩, by simp only [Copy.block]⟩

theorem memcpy_ascends :
    Ascends (fun mem i => mem (src + i)) dest mem n (memcpy mem dest src n).1 := by
  apply blocks_rule (Q := fun s : Copy => Ascends _ dest mem n s.mem) (Copy.consumes mem dest src n)
  · rintro s ⟨k, h⟩ hone
    have hk : k + 1 = n := hone ▸ h.left
    have hchunk := h.ascends.chunk 1
    rw [splice_one, hk] at hchunk
    simpa only [Copy.last, h.curDest, h.curSrc, Nat.add_zero] using hchunk
  · rintro s ⟨k, h⟩ hzero
    have hk : k = n := by
      have := h.left
      omega
    exact hk ▸ h.ascends
  · exact ⟨0, rfl, rfl, Nat.zero_add n, .start⟩

/-- `k` bytes have been set. -/
structure Fill.Reached (byte : UInt8) (mem : ℕ → UInt8) (dest n : ℕ) (s : Fill) (k : ℕ) :
    Prop where
  curDest : s.curDest = dest + k
  left : k + s.n = n
  ascends : Ascends (fun _ _ => byte) dest mem k s.mem

variable {byte : UInt8}

theorem Fill.Reached.one {s : Fill} (h : Reached byte mem dest n s k) (hleft : s.n ≠ 0) :
    Reached byte mem dest n
      { mem := Function.update s.mem s.curDest byte, curDest := s.curDest + 1, n := s.n - 1 }
      (k + 1) := by
  have hchunk := h.ascends.chunk 1
  rw [splice_one, ← h.curDest] at hchunk
  refine ⟨?_, ?_, hchunk⟩
  · rw [h.curDest, Nat.add_assoc]
  · have := h.left
    dsimp only
    omega

theorem Fill.Reached.align {s : Fill} (h : Reached byte mem dest n s k) (fuel : ℕ) :
    ∃ k', Reached byte mem dest n (Fill.align byte fuel s) k' := by
  induction fuel generalizing s k with
  | zero => exact ⟨k, h⟩
  | succ fuel ih =>
      rw [Fill.align]
      by_cases hturn : s.n ≠ 0 ∧ s.curDest &&& 7 ≠ 0
      · rw [if_pos hturn]
        exact ih (h.one hturn.1)
      · rw [if_neg hturn]
        exact ⟨k, h⟩

theorem Fill.Reached.block {s : Fill} (h : Reached byte mem dest n s k) {size count : ℕ}
    (hsize : size ∈ [8, 4, 2]) (hleft : count * size ≤ s.n) :
    Reached byte mem dest n (s.block byte size count) (k + count * size) := by
  have hchunk := h.ascends.chunk (count * size)
  rw [Fill.block, pattern_eq byte hsize, ← readWords_const byte size count 0,
    aliasStores_readWords]
  refine ⟨?_, ?_, ?_⟩
  · rw [h.curDest, Nat.add_assoc]
  · have := h.left
    dsimp only
    omega
  · simpa only [h.curDest] using hchunk

theorem Fill.consumes (byte : UInt8) (mem : ℕ → UInt8) (dest n : ℕ) :
    Consumes Fill.n (Fill.block byte) fun s => ∃ k, Fill.Reached byte mem dest n s k := by
  rintro size count s hsize ⟨k, h⟩ hleft
  exact ⟨⟨_, h.block hsize hleft⟩, by simp only [Fill.block]⟩

theorem memset_ascends {val : Int32} :
    Ascends (fun _ _ => val.toUInt32.toUInt8) dest mem n (memset mem dest val n).1 := by
  apply blocks_rule (Q := fun s : Fill => Ascends _ dest mem n s.mem) (Fill.consumes _ mem dest n)
  · rintro s ⟨k, h⟩ hone
    have hk : k + 1 = n := hone ▸ h.left
    have hchunk := (h.one (hone ▸ Nat.one_ne_zero)).ascends
    exact hk ▸ hchunk
  · rintro s ⟨k, h⟩ hzero
    have hk : k = n := by
      have := h.left
      omega
    exact hk ▸ h.ascends
  · have hstart : Fill.Reached val.toUInt32.toUInt8 mem dest n { mem, curDest := dest, n } 0 :=
      ⟨rfl, Nat.zero_add n, .start⟩
    exact hstart.align n

end Words

theorem forUp_ascends {value : (ℕ → UInt8) → ℕ → UInt8} {start : ℕ → UInt8} {i : ℕ} (left : ℕ)
    (h : Ascends value dest start i mem) :
    Ascends value dest start (i + left) (forUp value dest left i mem) := by
  induction left generalizing i mem with
  | zero => exact h
  | succ left ih =>
      have hchunk := h.chunk 1
      rw [splice_one] at hchunk
      rw [forUp, Nat.add_comm left, ← Nat.add_assoc]
      exact ih hchunk

theorem forUp_zero_ascends (value : (ℕ → UInt8) → ℕ → UInt8) (dest n : ℕ) (mem : ℕ → UInt8) :
    Ascends value dest mem n (forUp value dest n 0 mem) := by
  have h := forUp_ascends (i := 0) n (@Ascends.start _ value dest mem)
  rwa [Nat.zero_add] at h

/-! ## The bytes behind a call -/

/-- No place that has been written is read later on, if the range goes up and the source is behind
the destination or apart from it. -/
theorem copy_eq_splice {mem' : ℕ → UInt8} (hapart : dest ≤ src ∨ src + n ≤ dest)
    (h : Ascends (fun mem i => mem (src + i)) dest mem n mem') :
    mem' = splice mem dest n fun i => mem (src + i) := by
  apply h.eq_splice (Nat.le_refl n)
  intro j mem'' hframe i hji hin
  exact hframe _ (by omega)

theorem fill_eq_splice {mem' : ℕ → UInt8} {byte : UInt8}
    (h : Ascends (fun _ _ => byte) dest mem n mem') : mem' = splice mem dest n fun _ => byte :=
  h.eq_splice (Nat.le_refl n) fun _ _ _ _ _ _ => rfl

/-- Going down, the places below are still to be read, and a source that is not behind the
destination has them there. -/
theorem forDown_eq_splice (hle : src ≤ dest) (i : ℕ) (mem : ℕ → UInt8) :
    forDown dest src i mem = splice mem dest i fun j => mem (src + j) := by
  induction i generalizing mem with
  | zero => rw [forDown, splice_zero]
  | succ i ih =>
      rw [forDown, ih, ← splice_update]
      refine splice_congr fun j hj => ?_
      have hne : src + j ≠ dest + i := by omega
      rw [Function.update_of_ne hne]

theorem memmove_eq_splice (mem : ℕ → UInt8) (dest src n : ℕ) :
    (memmove mem dest src n).1 = splice mem dest n fun i => mem (src + i) := by
  unfold memmove
  rcases Nat.lt_trichotomy dest src with hlt | rfl | hgt
  · rw [if_pos hlt]
    exact copy_eq_splice (.inl (Nat.le_of_lt hlt)) (forUp_zero_ascends _ dest n mem)
  · rw [if_neg (Nat.lt_irrefl _), if_neg (Nat.lt_irrefl _)]
    funext a
    by_cases ha : dest ≤ a ∧ a < dest + n
    · rw [splice, if_pos ha, Nat.add_sub_cancel' ha.1]
    · rw [splice_outside ha]
  · rw [if_neg (Nat.lt_asymm hgt), if_pos hgt]
    exact forDown_eq_splice (Nat.le_of_lt hgt) n mem

end Runs

theorem words_eq_bytes (mem : ℕ → UInt8) (dest src n : ℕ) (val : Int32) :
    ((dest + n ≤ src ∨ src + n ≤ dest) →
        Words.memcpy mem dest src n = Bytes.memcpy mem dest src n) ∧
      Words.memset mem dest val n = Bytes.memset mem dest val n ∧
      (∀ i < n, (memmove mem dest src n).1 (dest + i) = mem (src + i)) ∧
      ∀ a, ¬(dest ≤ a ∧ a < dest + n) →
        (Words.memcpy mem dest src n).1 a = mem a ∧ (Bytes.memcpy mem dest src n).1 a = mem a ∧
          (Words.memset mem dest val n).1 a = mem a ∧ (Bytes.memset mem dest val n).1 a = mem a ∧
          (memmove mem dest src n).1 a = mem a := by
  refine ⟨fun hapart => ?_, ?_, fun i hi => ?_, fun a ha => ⟨?_, ?_, ?_, ?_, ?_⟩⟩
  · have hdest : dest ≤ src ∨ src + n ≤ dest := by omega
    apply Prod.ext
    · exact (copy_eq_splice hdest Words.memcpy_ascends).trans
        (copy_eq_splice hdest (forUp_zero_ascends _ dest n mem)).symm
    · rfl
  · apply Prod.ext
    · exact (fill_eq_splice Words.memset_ascends).trans
        (fill_eq_splice (forUp_zero_ascends _ dest n mem)).symm
    · rfl
  · rw [memmove_eq_splice, splice_inside hi]
  · exact Words.memcpy_ascends.outside ha
  · exact (forUp_zero_ascends _ dest n mem).outside ha
  · exact Words.memset_ascends.outside ha
  · exact (forUp_zero_ascends _ dest n mem).outside ha
  · rw [memmove_eq_splice, splice_outside ha]

theorem words_eq_bytes_apart :
    Words.memcpy (fun a => UInt8.ofNat a) 1001 5 127 =
        Bytes.memcpy (fun a => UInt8.ofNat a) 1001 5 127 ∧
      (memmove (fun a => UInt8.ofNat a) 10 5 127).1 (10 + 7) = 12 :=
  ⟨(words_eq_bytes (fun a => UInt8.ofNat a) 1001 5 127 0).1 (by decide),
    (words_eq_bytes (fun a => UInt8.ofNat a) 10 5 127 0).2.2.1 7 (by decide)⟩

end Ilobilix.Libc
