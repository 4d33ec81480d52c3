import Ilobilix.Lib.Math
import Mathlib.Data.List.Basic
import Mathlib.Data.Int.ModEq

/-!
# `str2int` of `lib/string.cppm`

The four functions of `libc/stdlib.cpp` that convert a string are `str2int` at a type of 64 bits.
`strtol` is what the C standard says of them, with the prefixes `0` and `0x`. Three slips keep the two
apart: letters count from sixteen on, a total that has reached the cut-off is out of range whatever the
next digit is, and the cut-off of the unsigned types is overwritten with its last digit.
`str2int_eq_strtol_iff` says which strings are converted right all the same.

A string is the list of its bytes. A NUL ends it, and so does the end of the list.
-/

namespace Ilobilix.Lib

/-! ## `libc/ctype.cpp` -/

def isspace (c : UInt8) : Bool :=
  c == ' '.toUInt8 || c == 0x0c || c == '\n'.toUInt8 || c == '\r'.toUInt8 || c == '\t'.toUInt8 || c == 0x0b

def isdigit (c : UInt8) : Bool := '0'.toUInt8 ≤ c && c ≤ '9'.toUInt8

def isupper (c : UInt8) : Bool := 'A'.toUInt8 ≤ c && c ≤ 'Z'.toUInt8

def islower (c : UInt8) : Bool := 'a'.toUInt8 ≤ c && c ≤ 'z'.toUInt8

def isxdigit (c : UInt8) : Bool :=
  isdigit c || ('a'.toUInt8 ≤ c && c ≤ 'f'.toUInt8) || ('A'.toUInt8 ≤ c && c ≤ 'F'.toUInt8)

/-! ## The result types -/

/-- `long` and `long long`, or `unsigned long` and `unsigned long long`. -/
inductive Ret
  | signed
  | unsigned
deriving DecidableEq, Repr

/-- `std::numeric_limits<Ret>::min()`. -/
def Ret.min : Ret → ℤ
  | .signed => -2 ^ 63
  | .unsigned => 0

/-- `std::numeric_limits<Ret>::max()`. -/
def Ret.max : Ret → ℤ
  | .signed => 2 ^ 63 - 1
  | .unsigned => 2 ^ 64 - 1

/-- `static_cast<Ret>`. -/
def Ret.cast : Ret → ℤ → ℤ
  | .signed, v => Int.bmod v (2 ^ 64)
  | .unsigned, v => v % 2 ^ 64

/-- `static_cast<URet>`. -/
def toURet (v : ℤ) : ℕ := (v % 2 ^ 64).toNat

/-- The value, the string at the end pointer, and whether `errno` was set to `ERANGE`. -/
structure Parsed where
  value : ℤ
  endptr : List UInt8
  erange : Bool
deriving DecidableEq, Repr

/-! ## `str2int` -/

/-- `*str` and the bytes behind it. -/
def at' (str : List UInt8) (i : ℕ) : UInt8 := str.getD i 0

/-- The digit of a character. -/
def digit (c : UInt8) : Option ℕ :=
  if isdigit c then some (c.toNat - '0'.toNat)
  else if isupper c then some (c.toNat - 'A'.toNat + 0x10)
  else if islower c then some (c.toNat - 'a'.toNat + 0x10)
  else none

/-- What the loop of `str2int` changes. -/
structure Digits where
  total : ℕ
  converted : Bool
  outOfRange : Bool
  str : List UInt8
deriving DecidableEq, Repr

/-- The loop of `str2int`. -/
def digitLoop (base cutoff cutlim : ℕ) : List UInt8 → ℕ → Bool → Bool → Digits
  | [], total, converted, outOfRange => ⟨total, converted, outOfRange, []⟩
  | c :: str, total, converted, outOfRange =>
      let stop : Digits := ⟨total, converted, outOfRange, c :: str⟩
      if c = 0 then stop
      else
        match digit c with
        | none => stop
        | some digit =>
            if base ≤ digit then stop
            else if outOfRange then digitLoop base cutoff cutlim str total converted outOfRange
            else if cutoff ≤ total ∨ total = cutoff ∧ cutlim < digit then
              digitLoop base cutoff cutlim str total converted true
            else digitLoop base cutoff cutlim str ((total * base + digit) % 2 ^ 64) true outOfRange

/-- `cutoff` and `cutlim`. For the unsigned types the remainder replaces the quotient. -/
def cutoffs (r : Ret) (negative : Bool) (base : ℤ) : ℕ × ℕ :=
  match r with
  | .unsigned => (toURet (r.max.tmod base), 0)
  | .signed =>
      let co := if negative then r.min else r.max
      let cutlim := if negative then -co.tmod base else co.tmod base
      (toURet (co.tdiv (if negative then -base else base)), toURet cutlim)

/-- The sign, and the string behind it. -/
def signOf (str : List UInt8) : Bool × List UInt8 :=
  if at' str 0 = '-'.toUInt8 then (true, str.drop 1)
  else if at' str 0 = '+'.toUInt8 then (false, str.drop 1)
  else (false, str)

/-- The base, and the string behind the prefix. -/
def baseOf (base : ℤ) (str : List UInt8) : ℤ × List UInt8 :=
  let octal := at' str 0 == '0'.toUInt8
  let hex := octal && (at' str 1 == 'x'.toUInt8 || at' str 1 == 'X'.toUInt8)
  if (base = 0 ∨ base = 16) ∧ hex ∧ isxdigit (at' str 2) then (16, str.drop 2)
  else if (base = 0 ∨ base = 8) ∧ octal then (8, str)
  else if base = 0 then (10, str)
  else (base, str)

def str2int (r : Ret) (nptr : List UInt8) (base' : ℤ) : Parsed :=
  let base := r.cast base'
  if base < 0 ∨ base = 1 then ⟨0, nptr, false⟩
  else
    let str := nptr.dropWhile isspace
    let (negative, str) := signOf str
    let (base, str) := baseOf base str
    let (cutoff, cutlim) := cutoffs r negative base
    let d := digitLoop (toURet base) cutoff cutlim str 0 false false
    let endptr := if d.converted then d.str else nptr
    if d.outOfRange then
      match r with
      | .unsigned => ⟨r.max, endptr, true⟩
      | .signed => ⟨if negative then r.min else r.max, endptr, true⟩
    else ⟨r.cast (if negative then -d.total else d.total), endptr, false⟩

/-! ## The C standard -/

/-- The value of a character in the bases up to 36. -/
def digitVal (c : UInt8) : Option ℕ :=
  if isdigit c then some (c.toNat - '0'.toNat)
  else if isupper c then some (c.toNat - 'A'.toNat + 10)
  else if islower c then some (c.toNat - 'a'.toNat + 10)
  else none

/-- The character is a digit of the base. -/
def IsDigitOf (val : UInt8 → Option ℕ) (base : ℕ) (c : UInt8) : Bool := (val c).any (· < base)

/-- The number that a sequence of digits stands for. -/
def valueOf (val : UInt8 → Option ℕ) (base : ℕ) (run : List UInt8) : ℕ :=
  run.foldl (fun total c => total * base + (val c).getD 0) 0

/-- The greatest magnitude of a result. -/
def Ret.limit : Ret → Bool → ℕ
  | .signed, true => 2 ^ 63
  | .signed, false => 2 ^ 63 - 1
  | .unsigned, _ => 2 ^ 64 - 1

/-- The result where the magnitude is greater. -/
def Ret.saturated : Ret → Bool → ℤ
  | .signed, true => Ret.signed.min
  | r, _ => r.max

/-- The string behind `0x`, which is a prefix in front of a hexadecimal digit only. -/
def hexPrefix : List UInt8 → Option (List UInt8)
  | c :: x :: d :: str =>
      if c = '0'.toUInt8 ∧ (x = 'x'.toUInt8 ∨ x = 'X'.toUInt8) ∧ IsDigitOf digitVal 16 d then some (d :: str)
      else none
  | _ => none

/-- The base, and the string behind the prefix. -/
def prefixOf (base : ℕ) (str : List UInt8) : ℕ × List UInt8 :=
  if base = 0 ∨ base = 16 then
    match hexPrefix str with
    | some str => (16, str)
    | none =>
        if base = 16 then (16, str)
        else if str.head? = some '0'.toUInt8 then (8, str)
        else (10, str)
  else (base, str)

/-- The sign, the base, and the string from the first digit on. -/
structure Subject where
  negative : Bool
  base : ℕ
  str : List UInt8
deriving DecidableEq, Repr

def Subject.of (nptr : List UInt8) (base : ℕ) : Subject :=
  let (negative, str) := signOf (nptr.dropWhile isspace)
  let (base, str) := prefixOf base str
  ⟨negative, base, str⟩

/-- The longest sequence of digits of the base. -/
def Subject.run (s : Subject) : List UInt8 := s.str.takeWhile (IsDigitOf digitVal s.base)

/-- `strtol` and its relatives. -/
def strtol (r : Ret) (nptr : List UInt8) (base : ℕ) : Parsed :=
  let s := Subject.of nptr base
  let value := valueOf digitVal s.base s.run
  let endptr := s.str.dropWhile (IsDigitOf digitVal s.base)
  if s.run = [] then ⟨0, nptr, false⟩
  else if r.limit s.negative < value then ⟨r.saturated s.negative, endptr, true⟩
  else ⟨r.cast (if s.negative then -value else value), endptr, false⟩

/-! ## Digits -/

theorem isDigitOf_iff {val : UInt8 → Option ℕ} {base : ℕ} {c : UInt8} :
    IsDigitOf val base c = true ↔ ∃ d, val c = some d ∧ d < base := by
  simp [IsDigitOf, Option.any_eq_true]

/-- A letter counts for six more than it should. -/
theorem digit_eq (c : UInt8) : digit c = (digitVal c).map fun d => if isdigit c then d else d + 6 := by
  unfold digit digitVal
  by_cases h₁ : isdigit c = true
  · simp [h₁]
  · by_cases h₂ : isupper c = true
    · simp [h₁, h₂]
    · by_cases h₃ : islower c = true
      · simp [h₁, h₂, h₃]
      · simp [h₁, h₂, h₃]

theorem isDigitOf_digitVal {base : ℕ} {c : UInt8} (h : IsDigitOf digit base c = true) :
    IsDigitOf digitVal base c = true := by
  rw [IsDigitOf, digit_eq] at h
  rw [IsDigitOf]
  cases hval : digitVal c with
  | none => simp [hval] at h
  | some d =>
      simp only [hval, Option.map_some, Option.any_some, decide_eq_true_eq] at h ⊢
      split at h <;> omega

theorem isxdigit_eq (c : UInt8) : isxdigit c = IsDigitOf digitVal 16 c := by
  have hall : ∀ n < 256, isxdigit (UInt8.ofNat n) = IsDigitOf digitVal 16 (UInt8.ofNat n) := by
    decide +kernel
  have hc := hall c.toNat c.toNat_lt
  rwa [UInt8.ofNat_toNat] at hc

section Loop

variable {base cutoff cutlim : ℕ} {c : UInt8}

theorem le_foldl_value (hbase : 0 < base) (val : UInt8 → Option ℕ) (run : List UInt8) : ∀ total : ℕ,
    total ≤ run.foldl (fun total c => total * base + (val c).getD 0) total := by
  induction run with
  | nil => exact fun total => le_rfl
  | cons c run ih =>
      intro total
      refine le_trans ?_ (ih _)
      exact (Nat.le_mul_of_pos_right total hbase).trans (Nat.le_add_right _ _)

theorem digitLoop_stop (h : IsDigitOf digit base c = false) (str : List UInt8) (total : ℕ)
    (converted outOfRange : Bool) :
    digitLoop base cutoff cutlim (c :: str) total converted outOfRange =
      ⟨total, converted, outOfRange, c :: str⟩ := by
  rw [digitLoop]
  split
  · rfl
  · rw [IsDigitOf] at h
    cases hdigit : digit c with
    | none => rfl
    | some d =>
        rw [hdigit, Option.any_some, decide_eq_false_iff_not, not_lt] at h
        exact if_pos h

theorem digitLoop_digit {d : ℕ} (hdigit : digit c = some d) (hd : d < base) (str : List UInt8)
    (total : ℕ) (converted outOfRange : Bool) :
    digitLoop base cutoff cutlim (c :: str) total converted outOfRange =
      if outOfRange then digitLoop base cutoff cutlim str total converted outOfRange
      else if cutoff ≤ total ∨ total = cutoff ∧ cutlim < d then
        digitLoop base cutoff cutlim str total converted true
      else digitLoop base cutoff cutlim str ((total * base + d) % 2 ^ 64) true outOfRange := by
  have h0 : c ≠ 0 := by
    rintro rfl
    cases hdigit
  rw [digitLoop, if_neg h0, hdigit]
  dsimp only
  rw [if_neg (not_le.mpr hd)]

/-- After the total is out of range the loop looks for the end of the digits only. -/
theorem digitLoop_outOfRange (str : List UInt8) (total : ℕ) (converted : Bool) :
    digitLoop base cutoff cutlim str total converted true =
      ⟨total, converted, true, str.dropWhile (IsDigitOf digit base)⟩ := by
  induction str with
  | nil => rfl
  | cons c str ih =>
      by_cases hc : IsDigitOf digit base c = true
      · obtain ⟨d, hdigit, hd⟩ := isDigitOf_iff.mp hc
        rw [digitLoop_digit hdigit hd, if_pos rfl, ih, List.dropWhile_cons_of_pos hc]
      · rw [digitLoop_stop (Bool.eq_false_iff.mpr hc), List.dropWhile_cons_of_neg hc]

/-- Where the loop of `str2int` stops, and what it has then. -/
theorem digitLoop_spec (hbase : 0 < base) (hcutoff : cutoff * base ≤ 2 ^ 64) (cutlim : ℕ)
    (str : List UInt8) : ∀ (total : ℕ) (converted : Bool),
    let run := str.takeWhile (IsDigitOf digit base)
    let value := run.foldl (fun total c => total * base + (digit c).getD 0) total
    let d := digitLoop base cutoff cutlim str total converted false
    d.str = str.dropWhile (IsDigitOf digit base) ∧
      (d.outOfRange = true ↔ run ≠ [] ∧ cutoff ≤ value / base) ∧
      (d.outOfRange = false → d.total = value) ∧
      (d.converted = true ↔ converted = true ∨ run ≠ [] ∧ total < cutoff) := by
  induction str with
  | nil =>
      intro total converted
      simp [digitLoop]
  | cons c str ih =>
      intro total converted
      dsimp only
      by_cases hc : IsDigitOf digit base c = true
      · obtain ⟨d, hdigit, hd⟩ := isDigitOf_iff.mp hc
        rw [digitLoop_digit hdigit hd, if_neg Bool.false_ne_true, List.takeWhile_cons_of_pos hc,
          List.dropWhile_cons_of_pos hc, List.foldl_cons, hdigit, Option.getD_some]
        have hle := le_foldl_value hbase digit (str.takeWhile (IsDigitOf digit base)) (total * base + d)
        by_cases hlt : total < cutoff
        · have hfit : total * base + d < 2 ^ 64 := by
            calc total * base + d < (total + 1) * base := by rw [Nat.succ_mul]; omega
              _ ≤ cutoff * base := Nat.mul_le_mul_right _ hlt
              _ ≤ 2 ^ 64 := hcutoff
          rw [if_neg (by omega), Nat.mod_eq_of_lt hfit]
          obtain ⟨hstr, hout, htotal, hconv⟩ := ih (total * base + d) true
          refine ⟨hstr, ?_, htotal, ?_⟩
          · rw [hout]
            by_cases hnil : str.takeWhile (IsDigitOf digit base) = []
            · -- the last digit is not looked at
              have hdiv : (total * base + d) / base = total := by
                rw [Nat.mul_comm, Nat.mul_add_div hbase, Nat.div_eq_of_lt hd, Nat.add_zero]
              rw [hnil, List.foldl_nil, hdiv]
              simp [hlt]
            · simp [hnil]
          · simp only [hconv, true_or, true_iff]
            exact Or.inr ⟨List.cons_ne_nil _ _, hlt⟩
        · have hdiv : total ≤ (str.takeWhile (IsDigitOf digit base)).foldl
              (fun total c => total * base + (digit c).getD 0) (total * base + d) / base :=
            (Nat.le_div_iff_mul_le hbase).mpr ((Nat.le_add_right _ _).trans hle)
          rw [if_pos (Or.inl (Nat.not_lt.mp hlt)), digitLoop_outOfRange]
          refine ⟨rfl, ?_, (fun h => by cases h), ?_⟩
          · exact iff_of_true rfl ⟨List.cons_ne_nil _ _, (Nat.not_lt.mp hlt).trans hdiv⟩
          · simp [hlt]
      · rw [digitLoop_stop (Bool.eq_false_iff.mpr hc), List.takeWhile_cons_of_neg hc,
          List.dropWhile_cons_of_neg hc]
        simp

end Loop

/-! ## The value of the digits -/

section Value

variable {base t u : ℕ} {run : List UInt8}

theorem digitVal_le (c : UInt8) : (digitVal c).getD 0 ≤ (digit c).getD 0 := by
  rw [digit_eq]
  cases digitVal c with
  | none => exact le_rfl
  | some d =>
      simp only [Option.map_some, Option.getD_some]
      split <;> omega

theorem foldl_value_le (h : t ≤ u) :
    run.foldl (fun total c => total * base + (digitVal c).getD 0) t ≤
      run.foldl (fun total c => total * base + (digit c).getD 0) u := by
  induction run generalizing t u with
  | nil => exact h
  | cons c run ih => exact ih (Nat.add_le_add (Nat.mul_le_mul_right _ h) (digitVal_le c))

theorem foldl_value_lt (hbase : 0 < base) (h : t < u) :
    run.foldl (fun total c => total * base + (digitVal c).getD 0) t <
      run.foldl (fun total c => total * base + (digit c).getD 0) u := by
  induction run generalizing t u with
  | nil => exact h
  | cons c run ih =>
      exact ih (Nat.add_lt_add_of_lt_of_le (Nat.mul_lt_mul_of_pos_right h hbase) (digitVal_le c))

/-- The two values agree on decimal digits only. -/
theorem valueOf_eq_iff (hbase : 0 < base) (hrun : ∀ c ∈ run, IsDigitOf digit base c = true) :
    valueOf digit base run = valueOf digitVal base run ↔ ∀ c ∈ run, isdigit c = true := by
  constructor
  · intro heq c hc
    by_contra hletter
    obtain ⟨pre, post, rfl⟩ := List.append_of_mem hc
    refine Nat.ne_of_gt ?_ heq
    rw [valueOf, valueOf, List.foldl_append, List.foldl_append, List.foldl_cons, List.foldl_cons]
    refine foldl_value_lt hbase (Nat.add_lt_add_of_le_of_lt
      (Nat.mul_le_mul_right _ (foldl_value_le le_rfl)) ?_)
    obtain ⟨d, hdigit, -⟩ := isDigitOf_iff.mp (hrun c hc)
    rw [digit_eq] at hdigit ⊢
    obtain ⟨e, hval, -⟩ := Option.map_eq_some_iff.mp hdigit
    rw [hval, Option.map_some, if_neg hletter, Option.getD_some, Option.getD_some]
    omega
  · intro hall
    refine List.foldl_ext _ _ _ fun total c hc => ?_
    rw [digit_eq]
    cases digitVal c with
    | none => rfl
    | some d => rw [Option.map_some, if_pos (hall c hc)]

end Value

/-- The digits that `str2int` sees are a part of those that are there. -/
theorem takeWhile_digit (base : ℕ) (str : List UInt8) :
    (str.dropWhile (IsDigitOf digitVal base)).length ≤ (str.dropWhile (IsDigitOf digit base)).length ∧
    ((∀ c ∈ str.takeWhile (IsDigitOf digitVal base), IsDigitOf digit base c = true) →
      str.takeWhile (IsDigitOf digit base) = str.takeWhile (IsDigitOf digitVal base) ∧
      str.dropWhile (IsDigitOf digit base) = str.dropWhile (IsDigitOf digitVal base)) ∧
    ((∃ c ∈ str.takeWhile (IsDigitOf digitVal base), ¬ IsDigitOf digit base c = true) →
      (str.dropWhile (IsDigitOf digitVal base)).length <
        (str.dropWhile (IsDigitOf digit base)).length) := by
  induction str with
  | nil => simp
  | cons c str ih =>
      obtain ⟨hle, heq, hlt⟩ := ih
      by_cases hc : IsDigitOf digit base c = true
      · have hval := isDigitOf_digitVal hc
        rw [List.takeWhile_cons_of_pos hc, List.takeWhile_cons_of_pos hval,
          List.dropWhile_cons_of_pos hc, List.dropWhile_cons_of_pos hval]
        refine ⟨hle, fun hall => ?_, fun ⟨e, he, hne⟩ => ?_⟩
        · obtain ⟨h₁, h₂⟩ := heq fun e he => hall e (List.mem_cons_of_mem c he)
          exact ⟨by rw [h₁], h₂⟩
        · rcases List.mem_cons.mp he with rfl | he
          · exact absurd hc hne
          · exact hlt ⟨e, he, hne⟩
      · rw [List.dropWhile_cons_of_neg hc]
        by_cases hval : IsDigitOf digitVal base c = true
        · rw [List.takeWhile_cons_of_pos hval, List.dropWhile_cons_of_pos hval]
          have hshort : (str.dropWhile (IsDigitOf digitVal base)).length < (c :: str).length :=
            Nat.lt_succ_of_le (List.dropWhile_suffix _).length_le
          exact ⟨hshort.le, fun hall => absurd (hall c List.mem_cons_self) hc, fun _ => hshort⟩
        · rw [List.takeWhile_cons_of_neg hval, List.dropWhile_cons_of_neg hval,
            List.takeWhile_cons_of_neg hc]
          simp

/-! ## The prefix and the cut-off -/

theorem hexPrefix_eq (str : List UInt8) :
    hexPrefix str =
      if (at' str 0 == '0'.toUInt8 && (at' str 1 == 'x'.toUInt8 || at' str 1 == 'X'.toUInt8)) = true ∧
        isxdigit (at' str 2) = true then some (str.drop 2) else none := by
  match str with
  | [] => rfl
  | [c] =>
      simp only [hexPrefix, at', List.getD_cons_succ, List.getD_nil]
      rw [if_neg fun h => absurd h.2 (by decide)]
  | [c, x] =>
      simp only [hexPrefix, at', List.getD_cons_succ, List.getD_nil]
      rw [if_neg fun h => absurd h.2 (by decide)]
  | c :: x :: d :: str => simp [hexPrefix, at', isxdigit_eq, and_assoc]

theorem baseOf_eq (base : ℕ) (str : List UInt8) :
    baseOf base str = (((prefixOf base str).1 : ℤ), (prefixOf base str).2) := by
  have hzero : (at' str 0 == '0'.toUInt8) = true ↔ str.head? = some '0'.toUInt8 := by
    cases str with
    | nil => decide
    | cons c str => simp [at']
  have h0 : (base : ℤ) = 0 ↔ base = 0 := by omega
  have h8 : (base : ℤ) = 8 ↔ base = 8 := by omega
  have h16 : (base : ℤ) = 16 ↔ base = 16 := by omega
  rw [baseOf, prefixOf, hexPrefix_eq]
  simp only [h0, h8, h16]
  by_cases hb : base = 0 ∨ base = 16
  · rw [if_pos hb]
    by_cases hhex : (at' str 0 == '0'.toUInt8 &&
        (at' str 1 == 'x'.toUInt8 || at' str 1 == 'X'.toUInt8)) = true ∧ isxdigit (at' str 2) = true
    · rw [if_pos hhex, if_pos ⟨hb, hhex⟩]
      rfl
    · rw [if_neg hhex, if_neg fun h => hhex h.2]
      dsimp only
      by_cases hoct : str.head? = some '0'.toUInt8
      · rcases hb with rfl | rfl
        · simp [hzero.mpr hoct, hoct]
        · simp
      · have hoct' : ¬ (at' str 0 == '0'.toUInt8) = true := fun h => hoct (hzero.mp h)
        rcases hb with rfl | rfl
        · simp [hoct', hoct]
        · simp
  · rw [if_neg hb, if_neg fun h => hb h.1]
    rw [not_or] at hb
    by_cases hoct : (base = 0 ∨ base = 8) ∧ (at' str 0 == '0'.toUInt8) = true
    · rw [if_pos hoct, hoct.1.resolve_left hb.1]
      rfl
    · rw [if_neg hoct, if_neg hb.1]

theorem prefixOf_base {base : ℕ} (hbase : base = 0 ∨ 2 ≤ base ∧ base ≤ 36) (str : List UInt8) :
    2 ≤ (prefixOf base str).1 ∧ (prefixOf base str).1 ≤ 36 := by
  unfold prefixOf
  split
  · split
    · simp
    · split <;> (try split) <;> simp
  · dsimp only
    omega

theorem prefixOf_length (base : ℕ) (str : List UInt8) : (prefixOf base str).2.length ≤ str.length := by
  unfold prefixOf
  split
  · rw [hexPrefix_eq]
    split
    · rename_i heq
      split at heq
      · cases heq
        simp
      · cases heq
    · split <;> (try split) <;> exact le_rfl
  · exact le_rfl

/-- The total from which on `str2int` takes a further digit for an overflow. -/
def cutoff (r : Ret) (negative : Bool) (base : ℕ) : ℕ :=
  match r with
  | .signed => r.limit negative / base
  | .unsigned => r.limit negative % base

theorem toURet_natCast {n : ℕ} (h : n < 2 ^ 64) : toURet n = n := by
  rw [toURet]
  omega

theorem limit_lt (r : Ret) (negative : Bool) : r.limit negative < 2 ^ 64 := by
  cases r <;> cases negative <;> decide

theorem cutoffs_fst (r : Ret) (negative : Bool) (base : ℕ) :
    (cutoffs r negative base).1 = cutoff r negative base := by
  cases r with
  | signed =>
      have hdiv : ∀ n : ℕ, n < 2 ^ 64 → toURet ((n : ℤ).tdiv base) = n / base := by
        intro n hn
        rw [← Int.ofNat_tdiv, toURet_natCast ((Nat.div_le_self n base).trans_lt hn)]
      cases negative with
      | false => exact hdiv (2 ^ 63 - 1) (by decide)
      | true =>
          have h := hdiv (2 ^ 63) (by decide)
          rw [← Int.neg_tdiv_neg] at h
          exact h
  | unsigned =>
      have hmod : toURet (((2 ^ 64 - 1 : ℕ) : ℤ).tmod base) = (2 ^ 64 - 1) % base := by
        rw [← Int.ofNat_tmod, toURet_natCast ((Nat.mod_le _ _).trans_lt (by decide))]
      exact hmod

/-- The cut-off is at most the right one. -/
theorem cutoff_mul_le (r : Ret) (negative : Bool) {base : ℕ} (h2 : 2 ≤ base) (h36 : base ≤ 36) :
    cutoff r negative base * base ≤ r.limit negative := by
  cases r with
  | signed => exact Nat.div_mul_le_self _ _
  | unsigned =>
      have hlt : (2 ^ 64 - 1) % base < base := Nat.mod_lt _ (by omega)
      calc (2 ^ 64 - 1) % base * base ≤ 36 * 36 := Nat.mul_le_mul (by omega) h36
        _ ≤ 2 ^ 64 - 1 := by decide

/-- A magnitude and a sign are read off the result. -/
theorem cast_inj {r : Ret} {negative : Bool} {v w : ℕ} (hv : v ≤ r.limit negative)
    (hw : w ≤ r.limit negative)
    (h : r.cast (if negative then -(v : ℤ) else v) = r.cast (if negative then -(w : ℤ) else w)) : v = w := by
  cases r with
  | signed =>
      cases negative with
      | false =>
          simp only [Ret.limit, Ret.cast, Bool.false_eq_true, if_false, Int.bmod] at h hv hw
          norm_num at h hv hw
          split at h <;> split at h <;> omega
      | true =>
          simp only [Ret.limit, Ret.cast, if_true, Int.bmod] at h hv hw
          norm_num at h hv hw
          split at h <;> split at h <;> omega
  | unsigned =>
      cases negative with
      | false =>
          simp only [Ret.limit, Ret.cast, Bool.false_eq_true, if_false] at h hv hw
          omega
      | true =>
          simp only [Ret.limit, Ret.cast, if_true] at h hv hw
          omega

/-! ## `str2int` and `strtol` -/

/-- The strings that `str2int` converts right: no digits; or no letter whose value is above the base minus
seven, and either a value out of range, or decimal digits only whose value is below the cut-off. -/
def Convertible (r : Ret) (nptr : List UInt8) (base : ℕ) : Prop :=
  let s := Subject.of nptr base
  let value := valueOf digitVal s.base s.run
  s.run = [] ∨
    (∀ c ∈ s.run, IsDigitOf digit s.base c = true) ∧ 0 < cutoff r s.negative s.base ∧
      (r.limit s.negative < value ∨
        (∀ c ∈ s.run, isdigit c = true) ∧ value / s.base < cutoff r s.negative s.base)

theorem Subject.length_le (nptr : List UInt8) (base : ℕ) :
    (Subject.of nptr base).str.length ≤ nptr.length := by
  have hsign : ∀ str, (signOf str).2.length ≤ str.length := by
    intro str
    unfold signOf
    split
    · exact (List.drop_suffix 1 str).length_le
    · split
      · exact (List.drop_suffix 1 str).length_le
      · exact le_rfl
  exact (prefixOf_length _ _).trans ((hsign _).trans (List.dropWhile_suffix _).length_le)

/-- `str2int` in terms of the subject of the string. -/
theorem str2int_eq {base : ℕ} (hbase : base = 0 ∨ 2 ≤ base ∧ base ≤ 36) (r : Ret) (nptr : List UInt8) :
    let s := Subject.of nptr base
    let d := digitLoop s.base (cutoff r s.negative s.base) (cutoffs r s.negative s.base).2 s.str 0 false false
    let endptr := if d.converted then d.str else nptr
    str2int r nptr base =
      if d.outOfRange then ⟨r.saturated s.negative, endptr, true⟩
      else ⟨r.cast (if s.negative then -d.total else d.total), endptr, false⟩ := by
  have hcast : r.cast base = base := by
    cases r with
    | signed =>
        rw [Ret.cast, Int.bmod]
        norm_num
        omega
    | unsigned =>
        rw [Ret.cast]
        omega
  obtain ⟨-, h36⟩ := prefixOf_base hbase (signOf (nptr.dropWhile isspace)).2
  dsimp only
  rw [str2int]
  dsimp only
  rw [hcast, if_neg (by omega), baseOf_eq]
  dsimp only
  rw [cutoffs_fst, toURet_natCast (h36.trans_lt (by decide))]
  split
  · rename_i hout
    refine Eq.trans ?_ (if_pos hout).symm
    cases r with
    | unsigned => rfl
    | signed =>
        cases hneg : (signOf (nptr.dropWhile isspace)).1 <;>
          simp [Ret.saturated, Subject.of, hneg]
  · rename_i hin
    exact (if_neg hin).symm

/-- `str2int` agrees with the C standard on the convertible strings only. -/
theorem str2int_eq_strtol_iff (r : Ret) (nptr : List UInt8) {base : ℕ}
    (hbase : base = 0 ∨ 2 ≤ base ∧ base ≤ 36) :
    str2int r nptr base = strtol r nptr base ↔ Convertible r nptr base := by
  have hlen := Subject.length_le nptr base
  have hs : 2 ≤ (Subject.of nptr base).base ∧ (Subject.of nptr base).base ≤ 36 := prefixOf_base hbase _
  have heq := str2int_eq hbase r nptr
  rw [Convertible, heq, strtol, Subject.run]
  clear heq
  obtain ⟨s, hsdef⟩ : ∃ s, s = Subject.of nptr base := ⟨_, rfl⟩
  rw [← hsdef] at hlen hs ⊢
  have hpos : 0 < s.base := by omega
  have hcut := cutoff_mul_le r s.negative hs.1 hs.2
  have hlim := limit_lt r s.negative
  obtain ⟨hstr, hout, htotal, hconv⟩ := digitLoop_spec hpos (hcut.trans hlim.le)
    (cutoffs r s.negative s.base).2 s.str 0 false
  obtain ⟨hle, hall, hsome⟩ := takeWhile_digit s.base s.str
  generalize digitLoop s.base (cutoff r s.negative s.base) (cutoffs r s.negative s.base).2 s.str 0 false
    false = d at hstr hout htotal hconv ⊢
  by_cases hnil : s.str.takeWhile (IsDigitOf digitVal s.base) = []
  · -- no digits
    have hnil' : s.str.takeWhile (IsDigitOf digit s.base) = [] := by
      rw [(hall fun c hc => by rw [hnil] at hc; cases hc).1, hnil]
    rw [hnil'] at hout htotal hconv
    have hfalse : d.outOfRange = false := Bool.eq_false_iff.mpr fun h => (hout.mp h).1 rfl
    have hnot : d.converted = false := Bool.eq_false_iff.mpr fun h => by simp at hconv; exact absurd h (by simp [hconv])
    rw [if_pos hnil, if_neg (Bool.eq_false_iff.mp hfalse), if_neg (Bool.eq_false_iff.mp hnot), htotal hfalse]
    refine iff_of_true ?_ (Or.inl hnil)
    have hcast : r.cast 0 = 0 := by cases r <;> simp [Ret.cast]
    simp [hcast]
  have hshort : (s.str.dropWhile (IsDigitOf digitVal s.base)).length < s.str.length := by
    have happ := congrArg List.length (s.str.takeWhile_append_dropWhile (p := IsDigitOf digitVal s.base))
    have hrun := List.length_pos_iff.mpr hnil
    rw [List.length_append] at happ
    omega
  rw [if_neg hnil, or_iff_right hnil]
  by_cases hdigits : ∀ c ∈ s.str.takeWhile (IsDigitOf digitVal s.base), IsDigitOf digit s.base c = true
  swap
  · -- the end pointer is too early
    have hlt := hsome (by simpa only [not_forall, exists_prop] using hdigits)
    refine iff_of_false (fun heq => ?_) fun h => hdigits h.1
    have hend := congrArg (List.length ∘ Parsed.endptr) heq
    rw [hstr] at hend
    simp only [Function.comp_apply] at hend
    (repeat' split at hend) <;> dsimp only at hend <;> omega
  obtain ⟨hrun, hrest⟩ := hall hdigits
  rw [hrun] at hout htotal hconv
  rw [hrest] at hstr
  by_cases hcut0 : cutoff r s.negative s.base = 0
  · -- the first digit is out of range, and nothing has been converted
    have hnot : ¬ d.converted = true := fun h => by
      rcases hconv.mp h with h | ⟨-, h⟩
      · cases h
      · omega
    rw [if_neg hnot]
    refine iff_of_false (fun heq => ?_) fun h => absurd h.2.1 (by omega)
    have hend := congrArg (List.length ∘ Parsed.endptr) heq
    simp only [Function.comp_apply] at hend
    (repeat' split at hend) <;> dsimp only at hend <;> omega
  have hcutpos := Nat.pos_of_ne_zero hcut0
  rw [if_pos (hconv.mpr (Or.inr ⟨hnil, hcutpos⟩)), hstr]
  have hvalue : valueOf digitVal s.base (s.str.takeWhile (IsDigitOf digitVal s.base)) ≤
      valueOf digit s.base (s.str.takeWhile (IsDigitOf digitVal s.base)) := foldl_value_le le_rfl
  have hsame := valueOf_eq_iff hpos hdigits
  change _ ↔ _ ∧ cutoff r s.negative s.base ≤ valueOf digit s.base _ / s.base at hout
  change _ → d.total = valueOf digit s.base _ at htotal
  generalize valueOf digit s.base (s.str.takeWhile (IsDigitOf digitVal s.base)) = v at *
  generalize valueOf digitVal s.base (s.str.takeWhile (IsDigitOf digitVal s.base)) = w at *
  by_cases hlimit : r.limit s.negative < w
  · have hbig : cutoff r s.negative s.base ≤ v / s.base :=
      (Nat.le_div_iff_mul_le hpos).mpr (hcut.trans (hlimit.le.trans hvalue))
    rw [if_pos (hout.mpr ⟨hnil, hbig⟩), if_pos hlimit]
    exact iff_of_true rfl ⟨hdigits, hcutpos, Or.inl hlimit⟩
  rw [if_neg hlimit]
  by_cases hbig : cutoff r s.negative s.base ≤ v / s.base
  · rw [if_pos (hout.mpr ⟨hnil, hbig⟩)]
    refine iff_of_false (fun heq => by cases congrArg Parsed.erange heq) ?_
    rintro ⟨-, -, h | ⟨hdec, hlt⟩⟩
    · exact hlimit h
    · rw [hsame.mpr hdec] at hbig
      exact absurd hlt (Nat.not_lt.mpr hbig)
  · have hfalse : ¬ d.outOfRange = true := fun h => hbig (hout.mp h).2
    have hv : v ≤ r.limit s.negative := by
      have hlt := (Nat.div_lt_iff_lt_mul hpos).mp (Nat.not_le.mp hbig)
      omega
    rw [if_neg hfalse, htotal (Bool.eq_false_iff.mpr hfalse)]
    constructor
    · intro heq
      have hvw := cast_inj hv (Nat.not_lt.mp hlimit) (congrArg Parsed.value heq)
      exact ⟨hdigits, hcutpos, Or.inr ⟨hsame.mp hvw, hvw ▸ Nat.not_le.mp hbig⟩⟩
    · rintro ⟨-, -, h | ⟨hdec, -⟩⟩
      · exact absurd h hlimit
      · rw [hsame.mpr hdec]

/-- The bytes of ` 42x`. -/
theorem str2int_eq_strtol_decimal :
    str2int .signed [0x20, 0x34, 0x32, 0x78] 10 = strtol .signed [0x20, 0x34, 0x32, 0x78] 10 :=
  (str2int_eq_strtol_iff .signed [0x20, 0x34, 0x32, 0x78] (Or.inr (by decide))).mpr
    (Or.inr (by decide +kernel))

/-- `A` is no hexadecimal digit, `70` is out of range for the unsigned types, whose cut-off in base 10 is
`(2 ^ 64 - 1) % 10`, and the greatest `long` is out of range. -/
theorem str2int_ne_strtol :
    str2int .signed [0x41] 16 ≠ strtol .signed [0x41] 16 ∧
    str2int .unsigned [0x37, 0x30] 10 ≠ strtol .unsigned [0x37, 0x30] 10 ∧
    str2int .signed [0x39, 0x32, 0x32, 0x33, 0x33, 0x37, 0x32, 0x30, 0x33, 0x36, 0x38, 0x35, 0x34, 0x37,
        0x37, 0x35, 0x38, 0x30, 0x37] 10 ≠
      strtol .signed [0x39, 0x32, 0x32, 0x33, 0x33, 0x37, 0x32, 0x30, 0x33, 0x36, 0x38, 0x35, 0x34, 0x37,
        0x37, 0x35, 0x38, 0x30, 0x37] 10 := by
  decide +kernel

end Ilobilix.Lib
