import Ilobilix.Foundation.Fuel
import Ilobilix.Foundation.PairCoding
import Mathlib.Data.List.Sort
import Mathlib.Logic.Function.Basic

/-!
# The generator of the symbol table

The host program `kallsyms` compresses the names of the kernel's symbols and writes the tables as an
assembler source. As long as there is a code that no name uses, the most frequent pair of codes gets
it and is replaced everywhere. `optimizeTokenTable` and `writeSrc` follow the program from the table
of the symbols on, which is sorted by addresses. The source is a list of values, texts and comments.

What the assembler makes of it is left open: `Assembler` has the documented behaviour for the lines
without surprises only.
-/

namespace Ilobilix.Elf.Kallsyms

/-! ## Symbols and pairs -/

/-- `struct sym_entry`. The first byte of `sym` is the type of the symbol. -/
structure SymEntry where
  addr : ℕ
  seq : ℕ
  sym : List UInt8

/-- `sym_name`. -/
def SymEntry.name (s : SymEntry) : List UInt8 := s.sym.tail

/-- The index of a pair in `token_profit`. -/
def pairIndex (x y : UInt8) : ℕ := x.toNat + y.toNat <<< 8

def pairs : List UInt8 → List ℕ
  | x :: y :: l => pairIndex x y :: pairs (y :: l)
  | _ => []

/-- `token_profit`, an array of `int`. -/
abbrev Profit := ℕ → BitVec 32

/-- Count all the pairs in a symbol. -/
def learnSymbol (symbol : List UInt8) (profit : Profit) : Profit :=
  (pairs symbol).foldl (fun profit p => Function.update profit p (profit p + 1)) profit

/-- Decrease the counts of the pairs in a symbol. -/
def forgetSymbol (symbol : List UInt8) (profit : Profit) : Profit :=
  (pairs symbol).foldl (fun profit p => Function.update profit p (profit p - 1)) profit

def buildInitialTokenTable (table : List SymEntry) : Profit :=
  table.foldl (fun profit s => learnSymbol s.sym profit) fun _ => 0

/-! ## Compression -/

/-- Whether the pair is in the string. -/
def findToken (a b : UInt8) : List UInt8 → Bool
  | x :: y :: l => (x == a && y == b) || findToken a b (y :: l)
  | _ => false

def compressSymbol (a b idx : UInt8) (symbol : List UInt8) (profit : Profit) :
    List UInt8 × Profit :=
  if findToken a b symbol then
    let symbol' := replacePair a b idx symbol
    (symbol', learnSymbol symbol' (forgetSymbol symbol profit))
  else (symbol, profit)

/-- Replace a token in all the symbols. -/
def compressSymbols (a b idx : UInt8) : List SymEntry → Profit → List SymEntry × Profit
  | [], profit => ([], profit)
  | s :: table, profit =>
      let r := compressSymbol a b idx s.sym profit
      let rest := compressSymbols a b idx table r.2
      ({ s with sym := r.1 } :: rest.1, rest.2)

/-- The first pair with the largest profit. -/
def findBestToken (profit : Profit) : ℕ :=
  ((List.range 0x10000).foldl
    (fun (r : ℕ × ℤ) i => if r.2 < (profit i).toInt then (i, (profit i).toInt) else r) (0, -10000)).1

/-- The globals of the program. `best c` has `best_table_len[c]` bytes. -/
structure State where
  table : List SymEntry
  profit : Profit
  best : UInt8 → List UInt8

/-- One slot of the loop in `optimize_result`; `none` leaves the loop. -/
def State.slot (s : State) (i : UInt8) : Option State :=
  if s.best i = [] then
    let best := findBestToken s.profit
    if s.profit best = 0 then none
    else
      let a := UInt8.ofNat (best &&& 0xFF)
      let b := UInt8.ofNat (best >>> 8 &&& 0xFF)
      let r := compressSymbols a b i s.table s.profit
      some ⟨r.1, r.2, Function.update s.best i [a, b]⟩
  else some s

/-- The slots below `n`, from the last one down. -/
def optimizeResult : (n : ℕ) → State → State
  | 0, s => s
  | n + 1, s =>
      match s.slot (UInt8.ofNat n) with
      | none => s
      | some s => optimizeResult n s

def insertRealSymbols (table : List SymEntry) : UInt8 → List UInt8 :=
  table.foldl (fun best s => s.sym.foldl (fun best c => Function.update best c [c]) best) fun _ => []

def optimizeTokenTable (table : List SymEntry) : State :=
  optimizeResult 256 ⟨table, buildInitialTokenTable table, insertRealSymbols table⟩

/-! ## The source that is written -/

/-- Why the program does not write the tables. -/
inductive Stop where
  | exit
  | fuel
  deriving DecidableEq

/-- `expand_symbol` of the generator. -/
def expandSymbol (best : UInt8 → List UInt8) : (fuel : ℕ) → List UInt8 → Except Stop (List UInt8)
  | 0, _ => .error .fuel
  | _ + 1, [] => .ok []
  | fuel + 1, c :: data => do
      let head ← if best c = [c] then .ok [c] else expandSymbol best fuel (best c)
      let rest ← expandSymbol best fuel data
      return head ++ rest

/-- A line of `.byte` values with a comment. -/
structure Line where
  bytes : List UInt8
  comment : List UInt8

/-- The length in front of a compressed name. -/
def uleb128 (len : ℕ) : List UInt8 :=
  if len ≤ 0x7F then [UInt8.ofNat len]
  else [UInt8.ofNat (len &&& 0x7F ||| 0x80), UInt8.ofNat (len >>> 7 &&& 0x7F)]

/-- What the loop over the names has written, and the restored table. -/
structure Names where
  markers : List ℕ
  lines : List Line
  table : List SymEntry

/-- The names from symbol `i` on, at the offset `off`, which is an `unsigned int`. -/
def writeNames (best : UInt8 → List UInt8) (fuel : ℕ) :
    (i off : ℕ) → List SymEntry → Except Stop Names
  | _, _, [] => .ok ⟨[], [], []⟩
  | i, off, s :: table =>
      if s.sym.length = 0 then .error .exit
      else if s.sym.length > 0x3FFF then .error .exit
      else do
        let bytes := uleb128 s.sym.length ++ s.sym
        let buf ← expandSymbol best fuel s.sym
        let rest ← writeNames best fuel (i + 1) ((off + bytes.length) % 2 ^ 32) table
        return {
          markers := (if i &&& 0xFF = 0 then [off] else []) ++ rest.markers
          lines := ⟨bytes, buf⟩ :: rest.lines
          table := { s with seq := i, sym := buf } :: rest.table }

/-- What stands between the quotes of a `.asciz` line. -/
def asciz (buf : List UInt8) : List UInt8 := if buf = [34] then [92, 34] else buf

/-- The texts of the tokens from slot `i` on. -/
def tokenTexts (best : UInt8 → List UInt8) (fuel : ℕ) : List UInt8 → Except Stop (List (List UInt8))
  | [] => .ok []
  | i :: slots => do
      let buf ← expandSymbol best fuel (best i)
      let rest ← tokenTexts best fuel slots
      return buf :: rest

/-- The slots in the order of the loops over them. -/
def slots : List UInt8 := (List.range 256).map UInt8.ofNat

/-- `best_idx`: where the text of each token starts. A text fits the buffer of `KSYM_NAME_LEN` bytes,
so that the sums fit an `unsigned int`. -/
def bestIdx : (off : ℕ) → List (List UInt8) → List ℕ
  | _, [] => []
  | off, text :: texts => off :: bestIdx (off + text.length + 1) texts

/-- The order of the names: `strcmp`, then the addresses, then the old order. -/
def compareNames (a b : SymEntry) : Ordering :=
  (compare a.name b.name).then ((compare a.addr b.addr).then (compare a.seq b.seq))

def sortSymbolsByName (table : List SymEntry) : List SymEntry :=
  table.mergeSort fun a b => (compareNames a b).isLE

def seqBytes (seq : ℕ) : List UInt8 :=
  [UInt8.ofNat (seq >>> 16), UInt8.ofNat (seq >>> 8), UInt8.ofNat seq]

/-- The offsets from the lowest address; one that does not fit an `unsigned int` ends the program. -/
def writeOffsets (relativeBase : ℕ) : List SymEntry → Except Stop (List ℕ)
  | [] => .ok []
  | s :: table =>
      let offset := (s.addr + 2 ^ 64 - relativeBase) % 2 ^ 64
      if offset > 0xFFFFFFFF then .error .exit
      else do
        let rest ← writeOffsets relativeBase table
        return offset :: rest

structure Output where
  numSyms : ℕ
  names : List Line
  markers : List ℕ
  /-- The texts between the quotes. -/
  tokenTable : List (List UInt8)
  tokenIndex : List ℕ
  offsets : List ℕ
  seqsOfNames : List Line

/-- `write_src`. -/
def writeSrc (fuel relativeBase : ℕ) (s : State) : Except Stop Output := do
  let names ← writeNames s.best fuel 0 0 s.table
  let texts ← tokenTexts s.best fuel slots
  let offsets ← writeOffsets relativeBase names.table
  return {
    numSyms := s.table.length
    names := names.lines
    markers := names.markers
    tokenTable := texts.map asciz
    tokenIndex := bestIdx 0 texts
    offsets
    seqsOfNames := (sortSymbolsByName names.table).map fun s => ⟨seqBytes s.seq, s.sym⟩ }

/-- `record_relative_base`, `optimize_token_table` and `write_src`. -/
def generate (table : List SymEntry) (fuel : ℕ) : Except Stop Output :=
  writeSrc fuel ((table.head?.map SymEntry.addr).getD 0) (optimizeTokenTable table)

end Ilobilix.Elf.Kallsyms
