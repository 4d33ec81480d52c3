import Mathlib.Algebra.GroupWithZero.Nat
import Mathlib.Logic.Function.Iterate

/-!
# The symbol table in the kernel

The generator's tables as the kernel reads them. A name is a record: its length in one or two bytes
and that many codes, each of which is replaced by the text of its token. `sym_offset` finds a record
from the marker of its block of 256 records on, and `sym_seq` gives the symbols in the order of
their names.
-/

namespace Ilobilix.Elf.Symbols

/-- The tables in memory. -/
structure Tables where
  names : List UInt8
  markers : List ℕ
  tokenTable : List UInt8
  tokenIndex : List ℕ
  seqsOfNames : List UInt8

namespace Tables

def name (t : Tables) (a : ℕ) : UInt8 := t.names.getD a 0

def token (t : Tables) (a : ℕ) : UInt8 := t.tokenTable.getD a 0

end Tables

variable (t : Tables)

/-- `sym_seq`. -/
def symSeq (idx : ℕ) : ℕ :=
  (List.range 3).foldl
    (fun seq i => (seq <<< 8) % 2 ^ 32 ||| (t.seqsOfNames.getD (3 * idx + i) 0).toNat) 0

/-- One turn of the loop in `sym_offset`. -/
def skipName (name : ℕ) : ℕ :=
  let len := (t.name name).toNat
  if len &&& 0x80 ≠ 0 then
    name + ((len &&& 0x7F ||| (t.name (name + 1)).toNat <<< 7) + 1) + 1
  else name + len + 1

/-- `sym_offset`. -/
def symOffset (pos : ℕ) : ℕ := (skipName t)^[pos &&& 0xFF] (t.markers.getD (pos >>> 8) 0)

/-- What `expand_symbol` has written: the bytes in front of `result`, and the locals. -/
structure Buffer where
  written : List UInt8
  maxlen : ℕ
  skippedFirst : Bool

/-- The loop over the characters of a token; `true` leaves both loops. -/
def copyToken : (fuel tptr : ℕ) → Buffer → Option (Buffer × Bool)
  | 0, _, _ => none
  | fuel + 1, tptr, b =>
      if t.token tptr = 0 then some (b, false)
      else if b.skippedFirst then
        if b.maxlen ≤ 1 then some (b, true)
        else
          copyToken fuel (tptr + 1)
            { b with written := b.written ++ [t.token tptr], maxlen := b.maxlen - 1 }
      else copyToken fuel (tptr + 1) { b with skippedFirst := true }

/-- The loop over the codes of a name. -/
def expandCodes (fuel : ℕ) : (len data : ℕ) → Buffer → Option Buffer
  | 0, _, b => some b
  | len + 1, data, b =>
      match copyToken t fuel (t.tokenIndex.getD (t.name data).toNat 0) b with
      | none => none
      | some (b, true) => some b
      | some (b, false) => expandCodes fuel len (data + 1) b

/-- `expand_symbol` for a buffer of `size` bytes, with the bytes that it writes to it. -/
def expandSymbol (ksymNameLen fuel off size : ℕ) : Option (List UInt8) :=
  let len := (t.name off).toNat
  let b : Buffer := ⟨[], min size ksymNameLen, false⟩
  let b :=
    if len &&& 0x80 ≠ 0 then
      expandCodes t fuel (len &&& 0x7F ||| (t.name (off + 1)).toNat <<< 7) (off + 2) b
    else expandCodes t fuel len (off + 1) b
  b.map fun b => b.written ++ if b.maxlen ≠ 0 then [0] else []

end Ilobilix.Elf.Symbols
