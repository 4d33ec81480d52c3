import Ilobilix.Elf.Kallsyms.Generator
import Ilobilix.Elf.Symbols
import Ilobilix.Foundation.Bytes
import Mathlib.Data.Nat.Bitwise

/-!
# Reading the tables

What the kernel reads from tables that hold the right bytes: behind a record is the next one, a
token is its text, and three bytes are a number. `Buffer.after` is the state of `expand_symbol`
after some characters, of which it drops the first one.
-/

namespace Ilobilix.Elf.Symbols

open Kallsyms

/-! ## Records -/

/-- The record of a compressed name. -/
def record (sym : List UInt8) : List UInt8 := uleb128 sym.length ++ sym

theorem and_0x7F (n : ℕ) : n &&& 0x7F = n % 128 := Nat.and_two_pow_sub_one_eq_mod n 7

theorem or_shiftLeft_seven {x : ℕ} (hx : x < 128) (y : ℕ) : x ||| y <<< 7 = x + y * 128 := by
  have h := Nat.two_pow_add_eq_or_of_lt (i := 7) hx y
  rw [Nat.or_comm, Nat.shiftLeft_eq, Nat.mul_comm y, ← h]
  omega

/-- The length in front of a record, in one byte or in two. -/
theorem uleb128_bytesAt {mem : ℕ → UInt8} {a len : ℕ} (h : BytesAt mem a (uleb128 len))
    (hlen : len ≤ 0x3FFF) :
    (uleb128 len).length = 1 ∧ (mem a).toNat &&& 0x80 = 0 ∧ (mem a).toNat = len ∨
      (uleb128 len).length = 2 ∧ (mem a).toNat &&& 0x80 ≠ 0 ∧
        (mem a).toNat &&& 0x7F ||| (mem (a + 1)).toNat <<< 7 = len := by
  rw [uleb128] at h ⊢
  split_ifs at h ⊢ with hshort
  · left
    have hmem : mem a = UInt8.ofNat len := (BytesAt.cons_iff.1 h).1
    have hval : (mem a).toNat = len := by
      rw [hmem, UInt8.toNat_ofNat']
      omega
    refine ⟨rfl, ?_, hval⟩
    rw [hval, show 0x80 = 2 ^ 7 from rfl, Nat.and_two_pow, Nat.testBit_lt_two_pow (by omega)]
    rfl
  · right
    obtain ⟨hfirst, h⟩ := BytesAt.cons_iff.1 h
    have hsecond : mem (a + 1) = UInt8.ofNat (len >>> 7 &&& 0x7F) := (BytesAt.cons_iff.1 h).1
    have hor : len &&& 0x7F ||| 0x80 = 2 ^ 7 + len % 128 := by
      have hbit : len % 128 ||| 0x80 = len % 128 + 1 * 128 :=
        or_shiftLeft_seven (Nat.mod_lt len (by omega)) 1
      rw [and_0x7F, hbit]
      omega
    have hval : (mem a).toNat = 2 ^ 7 + len % 128 := by
      rw [hfirst, hor, UInt8.toNat_ofNat']
      omega
    have hval' : (mem (a + 1)).toNat = len / 128 := by
      rw [hsecond, and_0x7F, Nat.shiftRight_eq_div_pow, UInt8.toNat_ofNat']
      omega
    refine ⟨rfl, ?_, ?_⟩
    · rw [hval, show 0x80 = 2 ^ 7 from rfl, Nat.and_two_pow, Nat.testBit_two_pow_add_eq,
        Nat.testBit_lt_two_pow (Nat.mod_lt _ (by omega))]
      decide
    · rw [hval, hval', and_0x7F, or_shiftLeft_seven (Nat.mod_lt _ (by omega))]
      omega

theorem skipName_record {t : Tables} {a : ℕ} {sym : List UInt8} (h : BytesAt t.name a (record sym))
    (hlen : sym.length ≤ 0x3FFF) : skipName t a = a + (record sym).length := by
  rw [record, List.length_append]
  rcases uleb128_bytesAt (BytesAt.append_iff.1 h).1 hlen with ⟨hone, hbit, hval⟩ | ⟨htwo, hbit, hval⟩
  · rw [skipName, if_neg (not_not_intro hbit), hval, hone]
    omega
  · rw [skipName, if_pos hbit, hval, htwo]
    omega

/-! ## Texts -/

/-- The state after the characters of a text. -/
def Buffer.after (size : ℕ) : List UInt8 → Buffer
  | [] => ⟨[], size, false⟩
  | _ :: u => ⟨u, size - u.length, true⟩

theorem Buffer.after_concat (size : ℕ) (u : List UInt8) (c : UInt8) (hu : u ≠ []) :
    Buffer.after size (u ++ [c]) =
      ⟨(Buffer.after size u).written ++ [c], (Buffer.after size u).maxlen - 1, true⟩ := by
  obtain ⟨d, u, rfl⟩ := List.exists_cons_of_ne_nil hu
  simp [Buffer.after, Nat.sub_sub]

/-- A token is copied as a whole, as long as there is room for its text and the zero byte. -/
theorem copyToken_after {t : Tables} {a fuel size : ℕ} {s : List UInt8}
    (h : BytesAt t.token a (s ++ [0])) (hs : 0 ∉ s) (u : List UInt8)
    (hsize : (u ++ s).length ≤ size) (hfuel : s.length < fuel) :
    copyToken t fuel a (.after size u) = some (.after size (u ++ s), false) := by
  induction s generalizing a fuel u with
  | nil =>
      obtain ⟨fuel, rfl⟩ := Nat.exists_eq_add_of_lt hfuel
      have hzero : t.token a = 0 := h 0 (by simp)
      simp [copyToken, hzero]
  | cons c s ih =>
      obtain ⟨hc, htail⟩ := BytesAt.cons_iff.1 h
      rw [List.length_cons] at hfuel
      obtain ⟨fuel, rfl⟩ := Nat.exists_eq_add_of_lt (Nat.zero_lt_of_lt hfuel)
      have hcne : c ≠ 0 := fun hzero => hs (by simp [hzero])
      have hrest : copyToken t fuel (a + 1) (.after size (u ++ [c])) =
          some (.after size (u ++ [c] ++ s), false) :=
        ih htail (fun hmem => hs (List.mem_cons_of_mem _ hmem)) (u ++ [c]) (by simpa using hsize)
          (by omega)
      rw [List.append_assoc, List.singleton_append] at hrest
      rw [Nat.zero_add, copyToken, hc, if_neg hcne]
      cases u with
      | nil => exact hrest
      | cons d u =>
          have hroom : ¬ size - u.length ≤ 1 := by
            simp only [List.length_append, List.length_cons] at hsize
            omega
          rw [Buffer.after_concat size (d :: u) c (by simp)] at hrest
          change (if size - u.length ≤ 1 then _ else _) = _
          rw [if_neg hroom]
          exact hrest

/-- The codes of a name, with a text for each of them. -/
theorem expandCodes_after {t : Tables} {text : UInt8 → List UInt8} {data fuel size : ℕ}
    {codes : List UInt8} (h : BytesAt t.name data codes)
    (htext : ∀ c ∈ codes, BytesAt t.token (t.tokenIndex.getD c.toNat 0) (text c ++ [0]))
    (hzero : 0 ∉ codes.flatMap text) (u : List UInt8)
    (hsize : (u ++ codes.flatMap text).length ≤ size) (hfuel : (codes.flatMap text).length < fuel) :
    expandCodes t fuel codes.length data (.after size u) =
      some (.after size (u ++ codes.flatMap text)) := by
  induction codes generalizing data u with
  | nil => simp [expandCodes]
  | cons c codes ih =>
      obtain ⟨hc, htail⟩ := BytesAt.cons_iff.1 h
      rw [List.flatMap_cons] at hzero hsize hfuel ⊢
      rw [List.length_append] at hfuel
      rw [← List.append_assoc] at hsize ⊢
      have hcopy : copyToken t fuel (t.tokenIndex.getD c.toNat 0) (.after size u) =
          some (.after size (u ++ text c), false) :=
        copyToken_after (htext c (List.mem_cons_self ..))
          (fun hmem => hzero (List.mem_append_left _ hmem)) u
          (by rw [List.length_append] at hsize; omega) (by omega)
      rw [List.length_cons, expandCodes, hc, hcopy]
      exact ih htail (fun d hd => htext d (List.mem_cons_of_mem _ hd))
        (fun hmem => hzero (List.mem_append_right _ hmem)) (u ++ text c) hsize (by omega)

/-- A record with the codes of a text gives the text without its first character. -/
theorem expandSymbol_record {t : Tables} {text : UInt8 → List UInt8} {a fuel ksymNameLen size : ℕ}
    {codes name : List UInt8} {type : UInt8} (h : BytesAt t.name a (record codes))
    (hlen : codes.length ≤ 0x3FFF)
    (htext : ∀ c ∈ codes, BytesAt t.token (t.tokenIndex.getD c.toNat 0) (text c ++ [0]))
    (heq : codes.flatMap text = type :: name) (hzero : 0 ∉ type :: name)
    (hname : name.length + 1 < ksymNameLen) (hsize : name.length < size) (hfuel : name.length + 1 < fuel) :
    expandSymbol t ksymNameLen fuel a size = some (name ++ [0]) := by
  obtain ⟨hlength, hcodes⟩ := BytesAt.append_iff.1 h
  have hroom : ([] ++ codes.flatMap text).length ≤ min size ksymNameLen := by
    rw [heq, List.nil_append, List.length_cons]
    omega
  have hrun : ∀ data, BytesAt t.name data codes →
      expandCodes t fuel codes.length data (.after (min size ksymNameLen) []) =
        some ⟨name, min size ksymNameLen - name.length, true⟩ := by
    intro data hdata
    rw [expandCodes_after hdata htext (heq ▸ hzero) [] hroom (by rw [heq]; exact hfuel), heq]
    rfl
  have hleft : min size ksymNameLen - name.length ≠ 0 := by omega
  rcases uleb128_bytesAt hlength hlen with ⟨hone, hbit, hval⟩ | ⟨htwo, hbit, hval⟩
  · rw [hone] at hcodes
    change (if _ then _ else expandCodes t fuel _ (a + 1) (.after _ [])).map _ = _
    rw [if_neg (not_not_intro hbit), hval, hrun _ hcodes, Option.map_some, if_pos hleft]
  · rw [htwo] at hcodes
    change (if _ then expandCodes t fuel _ (a + 2) (.after _ []) else _).map _ = _
    rw [if_pos hbit, hval, hrun _ hcodes, Option.map_some, if_pos hleft]

/-! ## Numbers in three bytes -/

theorem symSeq_eq {t : Tables} {idx seq : ℕ}
    (h : BytesAt (fun a => t.seqsOfNames.getD a 0) (3 * idx) (seqBytes seq)) (hseq : seq < 2 ^ 24) :
    symSeq t idx = seq := by
  obtain ⟨hhigh, h⟩ := BytesAt.cons_iff.1 h
  obtain ⟨hmiddle, h⟩ := BytesAt.cons_iff.1 h
  have hlow := (BytesAt.cons_iff.1 h).1
  have hbyte : ∀ x y, y < 256 → x <<< 8 ||| y = x * 256 + y := by
    intro x y hy
    have hor := Nat.two_pow_add_eq_or_of_lt (i := 8) hy x
    rw [Nat.shiftLeft_eq, Nat.mul_comm x, ← hor]
  have hstep : ∀ x y, x < 2 ^ 16 → y < 256 → x <<< 8 % 2 ^ 32 ||| y = x * 256 + y := by
    intro x y hx hy
    rw [Nat.mod_eq_of_lt (by rw [Nat.shiftLeft_eq]; omega), hbyte x y hy]
  have hvalue : ∀ n, (UInt8.ofNat n).toNat = n % 256 := fun n => UInt8.toNat_ofNat'
  change ((0 % 2 ^ 32 ||| (t.seqsOfNames.getD (3 * idx) 0).toNat) <<< 8 % 2 ^ 32 |||
    (t.seqsOfNames.getD (3 * idx + 1) 0).toNat) <<< 8 % 2 ^ 32 |||
    (t.seqsOfNames.getD (3 * idx + 1 + 1) 0).toNat = seq
  rw [hhigh, hmiddle, hlow, hvalue, hvalue, hvalue, Nat.zero_mod, Nat.zero_or,
    Nat.shiftRight_eq_div_pow, Nat.shiftRight_eq_div_pow,
    hstep (seq / 2 ^ 16 % 256) (seq / 2 ^ 8 % 256) (by omega) (by omega),
    hstep _ (seq % 256) (by omega) (by omega)]
  omega

end Ilobilix.Elf.Symbols
