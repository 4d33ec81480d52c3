import Ilobilix.Elf.Kallsyms.RoundTrip

/-!
# `kallsyms::lookup`

The kernel looks a symbol up by its address and by its name, with a binary search and a walk back over
equal entries in both cases. An index that is not in the table is a read behind the arrays.

The lookup by address is right: `lookupAddr_spec`. The lookup by name computes `mid - 1` for an unsigned
`mid`, which wraps around below the first name: `lookupName_right_iff`.
-/

namespace Ilobilix.Elf.Kallsyms

open Symbols

namespace Lookup

/-- Why a lookup did not return. -/
inductive Stop
  | outOfBounds
  | fuel
deriving DecidableEq, Repr

/-- The arrays of the generator in the image of the kernel. -/
structure Image where
  tables : Tables
  /-- `kallsyms_offsets`, by their bits -/
  offsets : List ℕ
  numSyms : ℕ
  relativeBase : ℕ
  skernel : ℕ
  ekernel : ℕ

variable (k : Image) (ksymNameLen fuel : ℕ)

namespace Image

def inKernel (addr : ℕ) : Bool := k.skernel ≤ addr && addr < k.ekernel

/-- `sym_addr`. -/
def symAddr (idx : ℕ) : ℕ := (k.relativeBase + k.offsets.getD idx 0 % 2 ^ 32) % 2 ^ 64

/-- The entries of the arrays of `num_syms` elements. -/
def check (idx : ℕ) : Except Stop Unit := if idx < k.numSyms then .ok () else .error .outOfBounds

/-- `sym_addr`, where it may be read. -/
def readAddr (idx : ℕ) : Except Stop ℕ := do
  k.check idx
  return k.symAddr idx

/-- `expand_symbol` into a buffer of `size` bytes. -/
def expand (off size : ℕ) : Except Stop (List UInt8) :=
  match Symbols.expandSymbol k.tables ksymNameLen fuel off size with
  | none => .error .fuel
  | some buf => .ok buf

end Image

/-- The string at the start of a buffer. -/
def cstr (buf : List UInt8) : List UInt8 := buf.takeWhile (· ≠ 0)

/-! ## By address -/

/-- The binary search. It returns `low`. -/
def searchAddr (addr : ℕ) : ℕ → ℕ → ℕ → Except Stop ℕ
  | 0, _, _ => .error .fuel
  | fuel + 1, low, high =>
      if 1 < high - low then do
        let mid := low + (high - low) / 2
        let a ← k.readAddr mid
        if a ≤ addr then searchAddr addr fuel mid high else searchAddr addr fuel low mid
      else return low

/-- `while (low && sym_addr(low - 1) == sym_addr(low)) low--`. -/
def firstAlias : ℕ → Except Stop ℕ
  | 0 => return 0
  | low + 1 => do
      let a ← k.readAddr low
      let b ← k.readAddr (low + 1)
      if a = b then firstAlias low else return low + 1

/-- The loop that looks for the end of the symbol, over `left` entries from `i` on; 0 if there is none. -/
def symEnd (symStart : ℕ) (i : ℕ) : ℕ → Except Stop ℕ
  | 0 => return 0
  | left + 1 => do
      let a ← k.readAddr i
      if symStart < a then return a else symEnd symStart (i + 1) left

/-- `lookup` of an address: the offset in the symbol, and what has been written to `namebuf`. -/
def lookupAddr (addr size : ℕ) : Except Stop (Option ℕ × List UInt8) := do
  if !k.inKernel addr then return (none, [])
  let low ← searchAddr k addr fuel 0 k.numSyms
  let low ← firstAlias k low
  let symStart ← k.readAddr low
  let symEnd ← symEnd k symStart (low + 1) (k.numSyms - (low + 1))
  if symEnd = 0 then return (none, [])
  let namebuf ← k.expand ksymNameLen fuel (symOffset k.tables low) size
  return (some ((addr + 2 ^ 64 - symStart) % 2 ^ 64), namebuf)

/-! ## By name -/

/-- `expand_symbol(sym_offset(sym_seq(idx)), namebuf)`, and the string in `namebuf` then. -/
def readName (idx : ℕ) : Except Stop (List UInt8) := do
  k.check idx
  let namebuf ← k.expand ksymNameLen fuel (symOffset k.tables (symSeq k.tables idx)) ksymNameLen
  return cstr namebuf

/-- The binary search. It returns `mid` after a `break`, and nothing when `low > high`. -/
def searchName (name : List UInt8) : ℕ → ℕ → ℕ → Except Stop (Option ℕ)
  | 0, _, _ => .error .fuel
  | left + 1, low, high =>
      if low ≤ high then do
        let mid := low + (high - low) / 2
        let cur ← readName k ksymNameLen fuel mid
        match compare name cur with
        | .gt => searchName name left ((mid + 1) % 2 ^ 64) high
        | .lt => searchName name left low ((mid + (2 ^ 64 - 1)) % 2 ^ 64)
        | .eq => return some mid
      else return none

/-- The walk back over equal names. -/
def firstName (name : List UInt8) : ℕ → Except Stop ℕ
  | 0 => return 0
  | low + 1 => do
      let cur ← readName k ksymNameLen fuel low
      if compare name cur = .eq then firstName name low else return low + 1

/-- `lookup` of a name; `-1ul` if there is no such symbol. -/
def lookupName (name : List UInt8) : Except Stop ℕ := do
  let high := (k.numSyms + (2 ^ 32 - 1)) % 2 ^ 32
  match ← searchName k ksymNameLen fuel name fuel 0 high with
  | none => return 2 ^ 64 - 1
  | some mid =>
      let low ← firstName k ksymNameLen fuel name mid
      k.check low
      k.readAddr (symSeq k.tables low)

end Lookup

end Ilobilix.Elf.Kallsyms

namespace Ilobilix.Elf.Symbols

/-! ## `expand_symbol` returns -/

/-- A token ends with the table at the latest. -/
theorem copyToken_returns (t : Tables) (n : ℕ) : ∀ tptr b, t.tokenTable.length ≤ tptr + n →
    ∃ r, ∀ fuel, n < fuel → copyToken t fuel tptr b = some r := by
  induction n with
  | zero =>
      intro tptr b hlen
      have hzero : t.token tptr = 0 := List.getD_eq_default _ _ hlen
      refine ⟨(b, false), fun fuel hfuel => ?_⟩
      obtain ⟨fuel, rfl⟩ := Nat.exists_eq_add_of_le' hfuel
      rw [copyToken, if_pos hzero]
  | succ n ih =>
      intro tptr b hlen
      by_cases hzero : t.token tptr = 0
      · refine ⟨(b, false), fun fuel hfuel => ?_⟩
        obtain ⟨fuel, rfl⟩ := Nat.exists_eq_add_of_le' (Nat.zero_lt_of_lt hfuel)
        rw [copyToken, if_pos hzero]
      · by_cases hroom : b.skippedFirst = true ∧ b.maxlen ≤ 1
        · refine ⟨(b, true), fun fuel hfuel => ?_⟩
          obtain ⟨fuel, rfl⟩ := Nat.exists_eq_add_of_le' (Nat.zero_lt_of_lt hfuel)
          rw [copyToken, if_neg hzero, if_pos hroom.1, if_pos hroom.2]
        · obtain ⟨r, hr⟩ := ih (tptr + 1) (if b.skippedFirst then
            { b with written := b.written ++ [t.token tptr], maxlen := b.maxlen - 1 }
            else { b with skippedFirst := true }) (by omega)
          refine ⟨r, fun fuel hfuel => ?_⟩
          obtain ⟨fuel, rfl⟩ := Nat.exists_eq_add_of_le' (Nat.zero_lt_of_lt hfuel)
          rw [← hr fuel (by omega), copyToken, if_neg hzero]
          split
          · rename_i hskip
            rw [if_neg fun hle => hroom ⟨hskip, hle⟩]
          · rfl

theorem expandCodes_returns (t : Tables) (len : ℕ) : ∀ data b,
    ∃ r, ∀ fuel, t.tokenTable.length < fuel → expandCodes t fuel len data b = some r := by
  induction len with
  | zero => exact fun data b => ⟨b, fun fuel _ => rfl⟩
  | succ len ih =>
      intro data b
      obtain ⟨⟨b', stop⟩, hcopy⟩ := copyToken_returns t t.tokenTable.length
        (t.tokenIndex.getD (t.name data).toNat 0) b (Nat.le_add_left _ _)
      cases stop with
      | true =>
          refine ⟨b', fun fuel hfuel => ?_⟩
          rw [expandCodes, hcopy fuel hfuel]
      | false =>
          obtain ⟨r, hr⟩ := ih (data + 1) b'
          refine ⟨r, fun fuel hfuel => ?_⟩
          rw [expandCodes, hcopy fuel hfuel]
          exact hr fuel hfuel

theorem expandSymbol_returns (t : Tables) (ksymNameLen off size : ℕ) :
    ∃ buf, ∀ fuel, t.tokenTable.length < fuel → expandSymbol t ksymNameLen fuel off size = some buf := by
  by_cases hbit : (t.name off).toNat &&& 0x80 ≠ 0
  · obtain ⟨b, hb⟩ := expandCodes_returns t
      ((t.name off).toNat &&& 0x7F ||| (t.name (off + 1)).toNat <<< 7) (off + 2) ⟨[], min size ksymNameLen, false⟩
    refine ⟨b.written ++ if b.maxlen ≠ 0 then [0] else [], fun fuel hfuel => ?_⟩
    rw [expandSymbol, if_pos hbit, hb fuel hfuel, Option.map_some]
  · obtain ⟨b, hb⟩ := expandCodes_returns t (t.name off).toNat (off + 1) ⟨[], min size ksymNameLen, false⟩
    refine ⟨b.written ++ if b.maxlen ≠ 0 then [0] else [], fun fuel hfuel => ?_⟩
    rw [expandSymbol, if_neg hbit, hb fuel hfuel, Option.map_some]

end Ilobilix.Elf.Symbols

namespace Ilobilix.Elf.Kallsyms

open Symbols

namespace Lookup

section Addr

variable {k : Image} {addr : ℕ}

/-- The table is sorted by address. -/
def Image.AddrSorted (k : Image) : Prop := ∀ i j, i ≤ j → j < k.numSyms → k.symAddr i ≤ k.symAddr j

theorem Image.readAddr_eq {idx : ℕ} (h : idx < k.numSyms) : k.readAddr idx = .ok (k.symAddr idx) := by
  rw [readAddr, check, if_pos h]
  rfl

/-- What is below `low` is not above the address, and what is from `high` on is above it. -/
theorem searchAddr_spec (hsorted : k.AddrSorted) {fuel : ℕ} : ∀ low high, low < high → high ≤ k.numSyms →
    k.symAddr low ≤ addr → (∀ j, high ≤ j → j < k.numSyms → addr < k.symAddr j) → high - low ≤ fuel →
    ∃ low', searchAddr k addr fuel low high = .ok low' ∧ low' < k.numSyms ∧ k.symAddr low' ≤ addr ∧
      ∀ j, low' < j → j < k.numSyms → addr < k.symAddr j := by
  induction fuel with
  | zero => 
      intro low high hlt _ _ _ hfuel
      omega
  | succ fuel ih =>
      intro low high hlt hn hlow hhigh hfuel
      rw [searchAddr]
      by_cases hgap : 1 < high - low
      · have hmid : low + (high - low) / 2 < k.numSyms := by omega
        rw [if_pos hgap]
        dsimp only
        rw [Image.readAddr_eq hmid]
        by_cases hle : k.symAddr (low + (high - low) / 2) ≤ addr
        · obtain ⟨low', hrun, hspec⟩ := ih (low + (high - low) / 2) high (by omega) hn hle hhigh (by omega)
          exact ⟨low', (if_pos hle).trans hrun, hspec⟩
        · obtain ⟨low', hrun, hspec⟩ := ih low (low + (high - low) / 2) (by omega) hmid.le hlow
            (fun j hj hjn => (Nat.not_le.mp hle).trans_le (hsorted _ j hj hjn)) (by omega)
          exact ⟨low', (if_neg hle).trans hrun, hspec⟩
      · rw [if_neg hgap]
        exact ⟨low, rfl, hlt.trans_le hn, hlow, fun j hj hjn => hhigh j (by omega) hjn⟩

/-- The first of the symbols at an address. -/
theorem firstAlias_spec (hsorted : k.AddrSorted) : ∀ {low}, low < k.numSyms →
    ∃ low', firstAlias k low = .ok low' ∧ low' ≤ low ∧ k.symAddr low' = k.symAddr low ∧
      ∀ j < low', k.symAddr j < k.symAddr low' := by
  intro low
  induction low with
  | zero => exact fun _ => ⟨0, rfl, le_rfl, rfl, fun j hj => absurd hj (Nat.not_lt_zero j)⟩
  | succ low ih =>
      intro hlow
      rw [firstAlias, Image.readAddr_eq (by omega), Image.readAddr_eq hlow]
      by_cases heq : k.symAddr low = k.symAddr (low + 1)
      · obtain ⟨low', hrun, hle, haddr, hfirst⟩ := ih (by omega)
        exact ⟨low', (if_pos heq).trans hrun, by omega, haddr.trans heq, hfirst⟩
      · refine ⟨low + 1, if_neg heq, le_rfl, rfl, fun j hj => ?_⟩
        have h₁ := hsorted j low (by omega) (by omega)
        have h₂ := hsorted low (low + 1) (by omega) hlow
        omega

/-- The first address behind an entry that is larger. -/
theorem symEnd_spec (k : Image) (symStart left : ℕ) : ∀ i, i + left ≤ k.numSyms →
    ∃ e, symEnd k symStart i left = .ok e ∧
      (e = 0 ∧ (∀ j, i ≤ j → j < i + left → k.symAddr j ≤ symStart) ∨
        e ≠ 0 ∧ ∃ j, i ≤ j ∧ j < i + left ∧ symStart < k.symAddr j) := by
  induction left with
  | zero => exact fun i _ => ⟨0, rfl, Or.inl ⟨rfl, fun j hj hj' => by omega⟩⟩
  | succ left ih =>
      intro i hi
      rw [symEnd, Image.readAddr_eq (by omega)]
      by_cases hlt : symStart < k.symAddr i
      · exact ⟨k.symAddr i, if_pos hlt, Or.inr ⟨by omega, i, le_rfl, by omega, hlt⟩⟩
      · obtain ⟨e, hrun, ⟨he, hall⟩ | ⟨he, j, hj, hj', hlt'⟩⟩ := ih (i + 1) (by omega)
        · refine ⟨e, (if_neg hlt).trans hrun, Or.inl ⟨he, fun j hj hj' => ?_⟩⟩
          rcases Nat.eq_or_lt_of_le hj with rfl | hj
          · omega
          · exact hall j hj (by omega)
        · exact ⟨e, (if_neg hlt).trans hrun, Or.inr ⟨he, j, by omega, by omega, hlt'⟩⟩

end Addr

/-- For an address in the kernel the lookup selects the first symbol at the greatest address that is not
above it. It returns the distance and expands the name, unless no symbol with a larger address follows. -/
theorem lookupAddr_spec {k : Image} {addr : ℕ} (hsorted : k.AddrSorted) (hpos : 0 < k.numSyms)
    (hfirst : k.symAddr 0 ≤ addr) (hin : k.inKernel addr = true) (haddr : addr < 2 ^ 64)
    (ksymNameLen size : ℕ) :
    ∃ low < k.numSyms, k.symAddr low ≤ addr ∧
      (∀ j < k.numSyms, k.symAddr j ≤ addr → k.symAddr j ≤ k.symAddr low) ∧
      (∀ j < low, k.symAddr j < k.symAddr low) ∧
      ((∃ j < k.numSyms, low < j ∧ k.symAddr low < k.symAddr j) →
        ∃ namebuf, Returns (fun fuel => k.expand ksymNameLen fuel (symOffset k.tables low) size) namebuf ∧
          Returns (fun fuel => lookupAddr k ksymNameLen fuel addr size)
            (some (addr - k.symAddr low), namebuf)) ∧
      ((¬ ∃ j < k.numSyms, low < j ∧ k.symAddr low < k.symAddr j) →
        Returns (fun fuel => lookupAddr k ksymNameLen fuel addr size) (none, [])) := by
  have hsearch : ∀ fuel, k.numSyms ≤ fuel → ∃ low', searchAddr k addr fuel 0 k.numSyms = .ok low' ∧
      low' < k.numSyms ∧ k.symAddr low' ≤ addr ∧ ∀ j, low' < j → j < k.numSyms → addr < k.symAddr j :=
    fun fuel hfuel => searchAddr_spec hsorted 0 k.numSyms hpos le_rfl hfirst (fun j hj hjn => absurd hjn (by omega))
      (by omega)
  obtain ⟨last, -, hlastn, hlast, hgt⟩ := hsearch k.numSyms le_rfl
  -- the last entry that is not above the address does not depend on the fuel
  have hrun : ∀ fuel, k.numSyms ≤ fuel → searchAddr k addr fuel 0 k.numSyms = .ok last := by
    intro fuel hfuel
    obtain ⟨low', hrun, hlow'n, hlow', hgt'⟩ := hsearch fuel hfuel
    rcases Nat.lt_trichotomy low' last with hlt | rfl | hlt
    · exact absurd hlast (Nat.not_le.mpr (hgt' last hlt hlastn))
    · exact hrun
    · exact absurd hlow' (Nat.not_le.mpr (hgt low' hlt hlow'n))
  obtain ⟨low, halias, hle, heq, hless⟩ := firstAlias_spec hsorted hlastn
  have hlow : low < k.numSyms := by omega
  have hgreatest : ∀ j < k.numSyms, k.symAddr j ≤ addr → k.symAddr j ≤ k.symAddr low := by
    intro j hj hja
    rw [heq]
    refine hsorted j last (Nat.not_lt.mp fun hlt => ?_) hlastn
    exact absurd hja (Nat.not_le.mpr (hgt j hlt hj))
  obtain ⟨e, hend, hcase⟩ := symEnd_spec k (k.symAddr low) (k.numSyms - (low + 1)) (low + 1) (by omega)
  refine ⟨low, hlow, heq ▸ hlast, hgreatest, hless, ?_, ?_⟩
  · rintro ⟨j, hj, hlj, hlt⟩
    have he : e ≠ 0 := by
      rcases hcase with ⟨-, hall⟩ | ⟨he, -⟩
      · exact absurd hlt (Nat.not_lt.mpr (hall j hlj (by omega)))
      · exact he
    obtain ⟨namebuf, hbuf⟩ := Symbols.expandSymbol_returns k.tables ksymNameLen (symOffset k.tables low) size
    have hexpand : ∀ fuel, k.tables.tokenTable.length < fuel →
        k.expand ksymNameLen fuel (symOffset k.tables low) size = .ok namebuf := by
      intro fuel hfuel
      rw [Image.expand, hbuf fuel hfuel]
    have hoff : (addr + 2 ^ 64 - k.symAddr low) % 2 ^ 64 = addr - k.symAddr low := by
      have hla : k.symAddr low ≤ addr := heq ▸ hlast
      omega
    refine ⟨namebuf, ⟨_, fun fuel hfuel => hexpand fuel hfuel⟩,
      max k.numSyms (k.tables.tokenTable.length + 1), fun fuel hfuel => ?_⟩
    dsimp only
    rw [lookupAddr, hin, hrun fuel ((le_max_left _ _).trans hfuel)]
    simp only [bind, Except.bind, halias, Image.readAddr_eq hlow, hend, he,
      hexpand fuel ((le_max_right _ _).trans hfuel), hoff, Bool.not_true, Bool.false_eq_true, if_false]
    rfl
  · intro hnone
    have he : e = 0 := by
      rcases hcase with ⟨he, -⟩ | ⟨-, j, hj, hj', hlt⟩
      · exact he
      · exact absurd ⟨j, by omega, by omega, hlt⟩ hnone
    refine ⟨k.numSyms, fun fuel hfuel => ?_⟩
    dsimp only
    rw [lookupAddr, hin, hrun fuel hfuel]
    simp only [bind, Except.bind, halias, Image.readAddr_eq hlow, hend, he, Bool.not_true,
      Bool.false_eq_true, if_false, if_true]
    rfl

/-- The names `a` and `b` of two symbols, the first of them `16` bytes long. -/
def exampleImage : Image where
  tables :=
    { names := [2, 0, 1, 2, 0, 2]
      markers := [0]
      tokenTable := [84, 0, 97, 0, 98, 0]
      tokenIndex := [0, 2, 4]
      seqsOfNames := [0, 0, 0, 0, 0, 1] }
  offsets := [0, 16]
  numSyms := 2
  relativeBase := 0xffffffff80000000
  skernel := 0xffffffff80000000
  ekernel := 0xffffffff80001000

theorem exampleImage_addrSorted : exampleImage.AddrSorted := by
  have hall : ∀ j < 2, ∀ i ≤ j, exampleImage.symAddr i ≤ exampleImage.symAddr j := by decide
  exact fun i j hij hj => hall j hj i hij

/-- Eight bytes into the first symbol. -/
theorem lookupAddr_spec_first : Returns (fun fuel => lookupAddr exampleImage 1024 fuel 0xffffffff80000008 64)
    (some 8, [97, 0]) := by
  obtain ⟨low, hlow, hle, hgreatest, -, hsome, -⟩ := lookupAddr_spec exampleImage_addrSorted (by decide)
    (by decide : exampleImage.symAddr 0 ≤ 0xffffffff80000008) (by decide) (by decide) 1024 64
  have hlow2 : low < 2 := hlow
  obtain rfl : low = 0 := by
    by_contra hne
    obtain rfl : low = 1 := by omega
    exact absurd hle (by decide)
  obtain ⟨namebuf, hbuf, hret⟩ := hsome ⟨1, by decide, by decide, by decide⟩
  have hname : Returns (fun fuel => exampleImage.expand 1024 fuel (symOffset exampleImage.tables 0) 64)
      [97, 0] := ⟨3, fun fuel hfuel => by
    obtain ⟨n, rfl⟩ := Nat.exists_eq_add_of_le' hfuel
    rfl⟩
  rw [hname.unique hbuf]
  exact hret

/-! ## The search by name -/

/-- The arrays hold the symbols of `table`, which is in the order of the addresses, and the order of their
names and then of their addresses. -/
structure Image.Holds (k : Image) (ksymNameLen : ℕ) (table : List SymEntry) : Prop where
  numSyms : k.numSyms = table.length
  length_lt : table.length < 2 ^ 24
  addr : ∀ i (h : i < table.length), k.symAddr i = table[i].addr
  name : ∀ i (h : i < table.length),
    Returns (fun fuel => k.expand ksymNameLen fuel (symOffset k.tables i) ksymNameLen) (table[i].name ++ [0])
  zero_notMem : ∀ s ∈ table, 0 ∉ s.name
  order : ∃ order : List ℕ, order.Perm (List.range table.length) ∧
    order.Pairwise (fun i j => ∀ a ∈ table[i]?, ∀ b ∈ table[j]?,
      ((compare a.name b.name).then (compare a.addr b.addr)).isLE) ∧
    ∀ j < table.length, order[j]? = some (symSeq k.tables j)

/-- The symbols in the order of their names. -/
structure Image.Sorted (k : Image) (table : List SymEntry) (sorted : ℕ → SymEntry) : Prop where
  seq : ∀ j < table.length, table[symSeq k.tables j]? = some (sorted j)
  mem : ∀ s ∈ table, ∃ j < table.length, sorted j = s
  le : ∀ i j, i < j → j < table.length →
    ((compare (sorted i).name (sorted j).name).then (compare (sorted i).addr (sorted j).addr)).isLE

theorem Image.Holds.exists_sorted {k : Image} {ksymNameLen : ℕ} {table : List SymEntry}
    (h : k.Holds ksymNameLen table) : ∃ sorted, k.Sorted table sorted := by
  obtain ⟨order, hperm, hpair, hseq⟩ := h.order
  have hlen : order.length = table.length := by rw [hperm.length_eq, List.length_range]
  have hlt : ∀ j < table.length, symSeq k.tables j < table.length := by
    intro j hj
    have hmem : symSeq k.tables j ∈ order := List.mem_of_getElem? (hseq j hj)
    exact List.mem_range.mp (hperm.mem_iff.mp hmem)
  refine ⟨fun j => table.getD (symSeq k.tables j) ⟨0, 0, []⟩, fun j hj => ?_, fun s hs => ?_,
    fun i j hij hj => ?_⟩
  · rw [List.getD_eq_getElem _ _ (hlt j hj)]
    exact List.getElem?_eq_getElem (hlt j hj)
  · obtain ⟨i, hi, rfl⟩ := List.mem_iff_getElem.mp hs
    obtain ⟨j, hj, hji⟩ := List.mem_iff_getElem.mp (hperm.mem_iff.mpr (List.mem_range.mpr hi))
    have hj' : j < table.length := hlen ▸ hj
    have heq : symSeq k.tables j = i := by
      have h₁ := hseq j hj'
      rw [List.getElem?_eq_getElem hj, hji] at h₁
      exact (Option.some.inj h₁).symm
    exact ⟨j, hj', by rw [heq, List.getD_eq_getElem _ _ hi]⟩
  · have hi : i < table.length := hij.trans hj
    have h₁ := hseq i hi
    have h₂ := hseq j hj
    rw [List.getElem?_eq_getElem (hlen ▸ hi), Option.some.injEq] at h₁
    rw [List.getElem?_eq_getElem (hlen ▸ hj), Option.some.injEq] at h₂
    have hle := List.pairwise_iff_getElem.mp hpair i j (hlen ▸ hi) (hlen ▸ hj) hij
    rw [h₁, h₂] at hle
    exact hle _ (by rw [List.getD_eq_getElem _ _ (hlt i hi)]; exact List.getElem?_eq_getElem (hlt i hi)) _
      (by rw [List.getD_eq_getElem _ _ (hlt j hj)]; exact List.getElem?_eq_getElem (hlt j hj))

theorem cstr_append_zero {name : List UInt8} (h : 0 ∉ name) : cstr (name ++ [0]) = name := by
  have hall : ∀ c ∈ name, decide (c ≠ 0) = true := fun c hc => by
    rw [decide_eq_true_eq]
    rintro rfl
    exact h hc
  rw [cstr, List.takeWhile_append_of_pos hall]
  simp

/-- With enough fuel every name is read. -/
theorem Image.Sorted.readName {k : Image} {ksymNameLen : ℕ} {table : List SymEntry} {sorted : ℕ → SymEntry}
    (hs : k.Sorted table sorted) (h : k.Holds ksymNameLen table) :
    ∃ N, ∀ fuel, N ≤ fuel → ∀ j < table.length, readName k ksymNameLen fuel j = .ok (sorted j).name := by
  refine exists_fuel_forall fun j hj => ?_
  obtain ⟨hlt, hget⟩ := List.getElem?_eq_some_iff.mp (hs.seq j hj)
  obtain ⟨N, hN⟩ := h.name _ hlt
  refine ⟨N, fun fuel hfuel => ?_⟩
  have hrun := hN fuel hfuel
  dsimp only at hrun
  have hzero : 0 ∉ table[symSeq k.tables j].name := h.zero_notMem _ (List.getElem_mem hlt)
  rw [← hget, ← cstr_append_zero hzero, Lookup.readName, Image.check, if_pos (h.numSyms ▸ hj), hrun]
  rfl

section Name

variable {k : Image} {ksymNameLen fuel n : ℕ} {names : ℕ → List UInt8} {q : List UInt8}

/-- A turn of the search. -/
theorem searchName_turn {left low high : ℕ} (hle : low ≤ high) {cur : List UInt8}
    (hread : readName k ksymNameLen fuel (low + (high - low) / 2) = .ok cur) :
    searchName k ksymNameLen fuel q (left + 1) low high =
      match compare q cur with
      | .gt => searchName k ksymNameLen fuel q left ((low + (high - low) / 2 + 1) % 2 ^ 64) high
      | .lt => searchName k ksymNameLen fuel q left low ((low + (high - low) / 2 + (2 ^ 64 - 1)) % 2 ^ 64)
      | .eq => .ok (some (low + (high - low) / 2)) := by
  rw [searchName, if_pos hle]
  dsimp only
  rw [hread]
  rfl

/-- The search in a table whose first name is not above the one that is looked for. Names below `low` are
smaller and names above `high` are larger, so `mid` is not 0 where it is decremented. -/
theorem searchName_spec (hread : ∀ j < n, readName k ksymNameLen fuel j = .ok (names j))
    (hsorted : ∀ i j, i < j → j < n → (compare (names i) (names j)).isLE) (hn : n < 2 ^ 32)
    (hfirst : (compare (names 0) q).isLE) (left : ℕ) : ∀ low high, low ≤ high + 1 → high < n →
    (∀ j < low, compare (names j) q = .lt) → (∀ j, high < j → j < n → compare q (names j) = .lt) →
    high + 1 - low < left →
    (∃ mid < n, searchName k ksymNameLen fuel q left low high = .ok (some mid) ∧
      compare q (names mid) = .eq) ∨
    searchName k ksymNameLen fuel q left low high = .ok none ∧ ∀ j < n, compare q (names j) ≠ .eq := by
  induction left with
  | zero => exact fun low high _ _ _ _ hleft => absurd hleft (Nat.not_lt_zero _)
  | succ left ih =>
      intro low high hle hhigh hbelow habove hleft
      by_cases hrange : low ≤ high
      · rw [searchName_turn hrange (hread _ (by omega))]
        obtain ⟨mid, hmid⟩ : ∃ mid, mid = low + (high - low) / 2 := ⟨_, rfl⟩
        rw [← hmid]
        cases hcmp : compare q (names mid) with
        | eq => exact Or.inl ⟨mid, by omega, rfl, hcmp⟩
        | gt =>
            have hmod : (mid + 1) % 2 ^ 64 = mid + 1 := Nat.mod_eq_of_lt (by omega)
            dsimp only
            rw [hmod]
            refine ih (mid + 1) high (by omega) hhigh (fun j hj => ?_) habove (by omega)
            have hlt : compare (names mid) q = .lt := Std.OrientedCmp.lt_of_gt hcmp
            rcases Nat.lt_succ_iff_lt_or_eq.mp hj with hj | rfl
            · exact Std.TransCmp.lt_of_isLE_of_lt (hsorted j mid hj (by omega)) hlt
            · exact hlt
        | lt =>
            have hpos : mid ≠ 0 := by
              rintro rfl
              have hgt : compare (names 0) q = .gt := Std.OrientedCmp.gt_of_lt hcmp
              rw [hgt] at hfirst
              cases hfirst
            have hmod : (mid + (2 ^ 64 - 1)) % 2 ^ 64 = mid - 1 := by omega
            dsimp only
            rw [hmod]
            refine ih low (mid - 1) (by omega) (by omega) hbelow (fun j hj hjn => ?_) (by omega)
            rcases Nat.eq_or_lt_of_le (by omega : mid ≤ j) with rfl | hj
            · exact hcmp
            · exact Std.TransCmp.lt_of_lt_of_isLE hcmp (hsorted mid j hj hjn)
      · rw [searchName, if_neg hrange]
        refine Or.inr ⟨rfl, fun j hj heq => ?_⟩
        rcases Nat.lt_or_ge j low with hjl | hjl
        · have hlt := Std.OrientedCmp.gt_of_lt (hbelow j hjl)
          rw [heq] at hlt
          cases hlt
        · have hlt := habove j (by omega) hj
          rw [heq] at hlt
          cases hlt

/-- Below the first name `high` becomes the largest word. -/
theorem searchName_below (hread : ∀ j < n, readName k ksymNameLen fuel j = .ok (names j))
    (hnum : k.numSyms = n) (hn : n < 2 ^ 32) (hbelow : ∀ j < n, compare q (names j) = .lt) (left : ℕ) :
    ∀ high, high < n → high + 2 < left →
      searchName k ksymNameLen fuel q left 0 high = .error .outOfBounds := by
  induction left with
  | zero => exact fun high _ hleft => absurd hleft (Nat.not_lt_zero _)
  | succ left ih =>
      intro high hhigh hleft
      rw [searchName_turn (Nat.zero_le high) (hread _ (by omega)), hbelow _ (by omega)]
      dsimp only
      rw [Nat.zero_add, Nat.sub_zero]
      by_cases hzero : high / 2 = 0
      · -- the next entry that is looked at is `2 ^ 63 - 1`
        obtain ⟨left, rfl⟩ := Nat.exists_eq_add_of_le' (by omega : 1 ≤ left)
        have hcheck : readName k ksymNameLen fuel ((2 ^ 64 - 1) / 2) = .error .outOfBounds := by
          rw [readName, Image.check, if_neg (by omega)]
          rfl
        rw [hzero, Nat.zero_add, Nat.mod_eq_of_lt (by decide), searchName, if_pos (Nat.zero_le _)]
        dsimp only
        rw [Nat.zero_add, Nat.sub_zero, hcheck]
        rfl
      · have hmod : (high / 2 + (2 ^ 64 - 1)) % 2 ^ 64 = high / 2 - 1 := by omega
        rw [hmod]
        exact ih (high / 2 - 1) (by omega) (by omega)

/-- The walk back ends at the first of the equal names. -/
theorem firstName_spec (hread : ∀ j < n, readName k ksymNameLen fuel j = .ok (names j)) :
    ∀ mid < n, compare q (names mid) = .eq →
    ∃ low ≤ mid, firstName k ksymNameLen fuel q mid = .ok low ∧ compare q (names low) = .eq ∧
      (low ≠ 0 → compare q (names (low - 1)) ≠ .eq) := by
  intro mid
  induction mid with
  | zero => exact fun _ heq => ⟨0, le_rfl, rfl, heq, fun h => absurd rfl h⟩
  | succ mid ih =>
      intro hmid heq
      rw [firstName, hread mid (by omega)]
      by_cases hcmp : compare q (names mid) = .eq
      · obtain ⟨low, hle, hrun, hspec⟩ := ih (by omega) hcmp
        exact ⟨low, by omega, (if_pos hcmp).trans hrun, hspec⟩
      · exact ⟨mid + 1, le_rfl, if_neg hcmp, heq, fun _ => hcmp⟩

end Name

/-- The lookup returns `-1ul` if and only if there is no symbol of the name, and else the lowest address of
such a symbol. -/
def LookupRight (k : Image) (ksymNameLen : ℕ) (table : List SymEntry) (q : List UInt8) : Prop :=
  ∃ r, Returns (fun fuel => lookupName k ksymNameLen fuel q) r ∧
    (r = 2 ^ 64 - 1 ↔ ∀ s ∈ table, s.name ≠ q) ∧
    ∀ s ∈ table, s.name = q → r ≤ s.addr ∧ ∃ s' ∈ table, s'.name = q ∧ s'.addr = r

section Main

variable {k : Image} {ksymNameLen : ℕ} {table : List SymEntry} {sorted : ℕ → SymEntry} {q : List UInt8}

theorem Image.Sorted.isLE_name (hs : k.Sorted table sorted) {i j : ℕ} (hij : i < j) (hj : j < table.length) :
    (compare (sorted i).name (sorted j).name).isLE := by
  have hle := hs.le i j hij hj
  cases hcmp : compare (sorted i).name (sorted j).name with
  | gt => rw [hcmp] at hle; cases hle
  | lt | eq => rfl

theorem Image.Sorted.mem_table (hs : k.Sorted table sorted) {j : ℕ} (hj : j < table.length) :
    sorted j ∈ table := List.mem_of_getElem? (hs.seq j hj)

/-- The first of the symbols of a name has the lowest address. -/
theorem Image.Sorted.addr_le (hs : k.Sorted table sorted) {low : ℕ} (hlow : low < table.length)
    (hq : (sorted low).name = q) (hfirst : low ≠ 0 → (sorted (low - 1)).name ≠ q) {s : SymEntry}
    (hmem : s ∈ table) (hname : s.name = q) : (sorted low).addr ≤ s.addr := by
  obtain ⟨j, hj, rfl⟩ := hs.mem s hmem
  rcases Nat.lt_trichotomy j low with hlt | rfl | hlt
  · -- the names between two equal ones are equal to them
    refine absurd ?_ (hfirst (by omega))
    have hle : (compare (sorted (low - 1)).name q).isLE := hq ▸ hs.isLE_name (by omega) hlow
    rcases Nat.eq_or_lt_of_le (by omega : j ≤ low - 1) with heq | hlt'
    · rw [← heq, hname]
    · have hge : (compare q (sorted (low - 1)).name).isLE := hname ▸ hs.isLE_name hlt' (by omega)
      exact Std.compare_eq_iff_eq.mp (Std.OrientedCmp.isLE_antisymm hle hge)
  · exact le_rfl
  · have hle := hs.le low j hlt hj
    rw [hq, hname, (Std.ReflCmp.compare_self : compare q q = .eq)] at hle
    exact Nat.isLE_compare.mp hle

theorem Image.Holds.addr_lt (h : k.Holds ksymNameLen table) {s : SymEntry} (hs : s ∈ table) :
    s.addr < 2 ^ 64 := by
  obtain ⟨i, hi, rfl⟩ := List.mem_iff_getElem.mp hs
  rw [← h.addr i hi]
  exact Nat.mod_lt _ (by decide)

theorem Image.Holds.high_eq (h : k.Holds ksymNameLen table) (hne : table ≠ []) :
    (k.numSyms + (2 ^ 32 - 1)) % 2 ^ 32 = table.length - 1 := by
  have hpos : 0 < table.length := List.length_pos_iff.mpr hne
  have hlen := h.length_lt
  rw [h.numSyms]
  omega

/-- For a name in front of the first one the search reads behind the table, from the same amount of fuel on
for all of these names. -/
theorem Image.Holds.lookupName_below (h : k.Holds ksymNameLen table) (hne : table ≠ []) :
    ∃ M, ∀ fuel, M ≤ fuel → ∀ q, (¬ ∃ s ∈ table, (compare s.name q).isLE) →
      lookupName k ksymNameLen fuel q = .error .outOfBounds := by
  obtain ⟨sorted, hs⟩ := h.exists_sorted
  obtain ⟨N, hN⟩ := hs.readName h
  have hpos : 0 < table.length := List.length_pos_iff.mpr hne
  have hlen := h.length_lt
  refine ⟨max N (table.length + 3), fun fuel hfuel q hnone => ?_⟩
  have hbelow : ∀ j < table.length, compare q (sorted j).name = .lt := by
    intro j hj
    cases hcmp : compare q (sorted j).name with
    | lt => rfl
    | eq => exact absurd ⟨_, hs.mem_table hj, by rw [Std.OrientedCmp.eq_symm hcmp]; rfl⟩ hnone
    | gt => exact absurd ⟨_, hs.mem_table hj, by rw [Std.OrientedCmp.lt_of_gt hcmp]; rfl⟩ hnone
  have hsearch := searchName_below (hN fuel ((le_max_left _ _).trans hfuel)) h.numSyms (by omega) hbelow
    fuel (table.length - 1) (by omega) (by omega)
  rw [lookupName, h.high_eq hne, hsearch]
  rfl

theorem lookupName_stops (h : k.Holds ksymNameLen table) (hne : table ≠ [])
    (hnone : ¬ ∃ s ∈ table, (compare s.name q).isLE) :
    Stops (fun fuel => lookupName k ksymNameLen fuel q) .outOfBounds := by
  obtain ⟨M, hM⟩ := h.lookupName_below hne
  exact ⟨M, fun fuel hfuel => hM fuel hfuel q hnone⟩

/-- For the other names the lookup finds the first symbol of the name, or there is none. -/
theorem Image.Sorted.lookupName_cases (hs : k.Sorted table sorted) (h : k.Holds ksymNameLen table)
    (hne : table ≠ []) : ∃ M, ∀ fuel, M ≤ fuel → ∀ q, (∃ s ∈ table, (compare s.name q).isLE) →
      (∃ low < table.length, (sorted low).name = q ∧ (low ≠ 0 → (sorted (low - 1)).name ≠ q) ∧
        lookupName k ksymNameLen fuel q = .ok (sorted low).addr) ∨
      ((∀ s ∈ table, s.name ≠ q) ∧ lookupName k ksymNameLen fuel q = .ok (2 ^ 64 - 1)) := by
  obtain ⟨N, hN⟩ := hs.readName h
  have hpos : 0 < table.length := List.length_pos_iff.mpr hne
  have hlen := h.length_lt
  have hhigh := h.high_eq hne
  refine ⟨max N (table.length + 1), fun fuel hfuel q ⟨s₀, hmem₀, hle₀⟩ => ?_⟩
  have hread := hN fuel ((le_max_left _ _).trans hfuel)
  have hfirst : (compare (sorted 0).name q).isLE := by
    obtain ⟨j, hj, rfl⟩ := hs.mem s₀ hmem₀
    rcases Nat.eq_zero_or_pos j with rfl | hj0
    · exact hle₀
    · exact Std.TransCmp.isLE_trans (hs.isLE_name hj0 hj) hle₀
  rcases searchName_spec hread (fun i j hij hj => hs.isLE_name hij hj) (by omega) hfirst fuel 0
      (table.length - 1) (by omega) (by omega) (fun j hj => absurd hj (Nat.not_lt_zero j))
      (fun j hj hjn => absurd hjn (by omega)) (by omega) with ⟨mid, hmid, hrun, heq⟩ | ⟨hrun, hno⟩
  · obtain ⟨low, hle, hback, hlow, hprev⟩ := firstName_spec hread mid hmid heq
    have hlown : low < table.length := by omega
    obtain ⟨hseq, hget⟩ := List.getElem?_eq_some_iff.mp (hs.seq low hlown)
    refine Or.inl ⟨low, hlown, (Std.compare_eq_iff_eq.mp hlow).symm,
      fun h0 hq => hprev h0 (Std.compare_eq_iff_eq.mpr hq.symm), ?_⟩
    rw [lookupName, hhigh, hrun]
    simp only [bind, Except.bind, hback, Image.check, h.numSyms, if_pos hlown]
    rw [Image.readAddr_eq (h.numSyms ▸ hseq), h.addr _ hseq, hget]
  · refine Or.inr ⟨?_, ?_⟩
    · rintro s hmem rfl
      obtain ⟨j, hj, rfl⟩ := hs.mem s hmem
      exact absurd Std.ReflCmp.compare_self (hno j hj)
    · rw [lookupName, hhigh, hrun]
      rfl

/-- Without symbols the search reads behind the table. -/
theorem lookupName_empty (hempty : k.numSyms = 0) (fuel : ℕ) (q : List UInt8) :
    lookupName k ksymNameLen (fuel + 1) q = .error .outOfBounds := by
  have hread : readName k ksymNameLen (fuel + 1) ((2 ^ 32 - 1) / 2) = .error .outOfBounds := by
    rw [readName, Image.check, hempty, if_neg (Nat.not_lt_zero _)]
    rfl
  rw [lookupName, hempty, searchName, if_pos (Nat.zero_le _)]
  simp only [Nat.zero_add, Nat.sub_zero, Nat.mod_eq_of_lt (by decide : 2 ^ 32 - 1 < 2 ^ 32), hread]
  rfl

/-- An address that the lookup returns is the lowest one of a symbol of the name. -/
theorem Image.Holds.isLeast_lookupName (h : k.Holds ksymNameLen table) :
    ∃ M, ∀ fuel, M ≤ fuel → ∀ q r, lookupName k ksymNameLen fuel q = .ok r → r ≠ 2 ^ 64 - 1 →
      IsLeast {a | ∃ s ∈ table, s.name = q ∧ s.addr = a} r := by
  by_cases hne : table = []
  · refine ⟨1, fun fuel hfuel q r hret => ?_⟩
    obtain ⟨fuel, rfl⟩ := Nat.exists_eq_add_of_le' hfuel
    rw [lookupName_empty (h.numSyms.trans (by rw [hne]; rfl))] at hret
    cases hret
  obtain ⟨sorted, hs⟩ := h.exists_sorted
  obtain ⟨M, hbelow⟩ := h.lookupName_below hne
  obtain ⟨N, hcases⟩ := hs.lookupName_cases h hne
  refine ⟨max M N, fun fuel hfuel q r hret hr => ?_⟩
  by_cases hsome : ∃ s ∈ table, (compare s.name q).isLE
  · rcases hcases fuel ((le_max_right _ _).trans hfuel) q hsome with
      ⟨low, hlow, hq, hprev, hrun⟩ | ⟨-, hrun⟩
    · obtain rfl : (sorted low).addr = r := Except.ok.inj (hrun.symm.trans hret)
      refine ⟨⟨_, hs.mem_table hlow, hq, rfl⟩, ?_⟩
      rintro a ⟨s, hmem, hname, rfl⟩
      exact hs.addr_le hlow hq hprev hmem hname
    · exact absurd (Except.ok.inj (hret.symm.trans hrun)) hr
  · have hrun := hbelow fuel ((le_max_left _ _).trans hfuel) q hsome
    cases hret.symm.trans hrun

/-- The lookup by name is right if and only if some name of the table is not above the one that is looked for,
and the lowest address is not `-1ul`. Else the search reads behind the table. -/
theorem lookupName_right_iff (h : k.Holds ksymNameLen table) (hne : table ≠ []) (q : List UInt8) :
    LookupRight k ksymNameLen table q ↔
      (∃ s ∈ table, (compare s.name q).isLE) ∧
      ∀ s ∈ table, s.name = q → ∃ s' ∈ table, s'.name = q ∧ s'.addr ≠ 2 ^ 64 - 1 := by
  obtain ⟨sorted, hs⟩ := h.exists_sorted
  obtain ⟨N, hcases⟩ := hs.lookupName_cases h hne
  constructor
  · rintro ⟨r, hret, hiff, hall⟩
    refine ⟨?_, fun s hmem hname => ?_⟩
    · by_contra hnone
      exact hret.not_stops (lookupName_stops h hne hnone)
    · obtain ⟨-, s', hmem', hname', haddr⟩ := hall s hmem hname
      refine ⟨s', hmem', hname', fun heq => ?_⟩
      exact hiff.mp (haddr.symm.trans heq) s hmem hname
  · rintro ⟨hsome, haddr⟩
    rcases hcases N le_rfl q hsome with ⟨low, hlow, hq, hprev, -⟩ | ⟨hno, -⟩
    · have hmem := hs.mem_table hlow
      have hleast : ∀ s ∈ table, s.name = q → (sorted low).addr ≤ s.addr :=
        fun s hmem hname => hs.addr_le hlow hq hprev hmem hname
      refine ⟨(sorted low).addr, ⟨N, fun fuel hfuel => ?_⟩, ?_,
        fun s hs hname => ⟨hleast s hs hname, _, hmem, hq, rfl⟩⟩
      · rcases hcases fuel hfuel q hsome with ⟨low', hlow', hq', hprev', hret⟩ | ⟨hno, -⟩
        · dsimp only
          rw [hret, (hleast _ (hs.mem_table hlow') hq').antisymm
            (hs.addr_le hlow' hq' hprev' hmem hq)]
        · exact absurd hq (hno _ hmem)
      · obtain ⟨s', hmem', hq', hne'⟩ := haddr _ hmem hq
        have hle := hleast s' hmem' hq'
        have hlt := h.addr_lt hmem'
        exact iff_of_false (by omega) fun hall => hall _ hmem hq
    · refine ⟨2 ^ 64 - 1, ⟨N, fun fuel hfuel => ?_⟩, iff_of_true rfl hno,
        fun s hmem hname => absurd hname (hno s hmem)⟩
      rcases hcases fuel hfuel q hsome with ⟨low, hlow, hq, -⟩ | ⟨-, hrun⟩
      · exact absurd hq (hno _ (hs.mem_table hlow))
      · exact hrun

end Main

theorem exampleImage_holds : exampleImage.Holds 1024
    [⟨0xffffffff80000000, 0, [84, 97]⟩, ⟨0xffffffff80000010, 1, [84, 98]⟩] where
  numSyms := rfl
  length_lt := by decide
  addr := by decide
  name i hi := by
    have hi2 : i < 2 := hi
    refine ⟨3, fun fuel hfuel => ?_⟩
    obtain ⟨n, rfl⟩ := Nat.exists_eq_add_of_le' hfuel
    match i, hi2 with
    | 0, _ => rfl
    | 1, _ => rfl
  zero_notMem := by decide
  order := by
    refine ⟨[0, 1], by decide, ?_, by decide⟩
    simp only [List.pairwise_cons]
    decide

/-- The second symbol. -/
theorem lookupName_right_second : LookupRight exampleImage 1024
    [⟨0xffffffff80000000, 0, [84, 97]⟩, ⟨0xffffffff80000010, 1, [84, 98]⟩] [98] :=
  (lookupName_right_iff exampleImage_holds (by decide) [98]).mpr (by decide)

/-- A name in front of the first one, such as that of an undefined symbol in a module. -/
theorem not_lookupName_right :
    Stops (fun fuel => lookupName exampleImage 1024 fuel [65]) .outOfBounds ∧
    ¬ LookupRight exampleImage 1024
      [⟨0xffffffff80000000, 0, [84, 97]⟩, ⟨0xffffffff80000010, 1, [84, 98]⟩] [65] := by
  have hstop := lookupName_stops exampleImage_holds (by decide) (by decide : ¬ ∃ s ∈
    [(⟨0xffffffff80000000, 0, [84, 97]⟩ : SymEntry), ⟨0xffffffff80000010, 1, [84, 98]⟩],
      (compare s.name [65]).isLE)
  exact ⟨hstop, fun ⟨_, hret, _⟩ => hret.not_stops hstop⟩

end Lookup

end Ilobilix.Elf.Kallsyms
