import Ilobilix.Elf.Kallsyms.Compression
import Ilobilix.Elf.Kallsyms.Reading

/-!
# Decoding undoes encoding

The tables of the generator, assembled and read by the kernel, give back the names. The assembler is
a parameter: it is known for plain strings, for the one escaped quote that the generator writes, for
comments without an end in them, and for numbers that fit.

The main result is exact. With every such assembler the kernel reads what it should if and only if
no name has a backslash, a line break or the end of a comment, no pair has the quote in it, the
texts of the tokens start below `2 ^ 16` and the blocks of the names below `2 ^ 32`.
-/

namespace Ilobilix.Elf.Kallsyms

open Symbols

/-! ## The assembler -/

/-- A text that stands for itself between the quotes of a string. -/
def PlainText (text : List UInt8) : Prop := ∀ c ∈ text, c ≠ 0 ∧ c ≠ 10 ∧ c ≠ 34 ∧ c ≠ 92

instance (text : List UInt8) : Decidable (PlainText text) :=
  inferInstanceAs (Decidable (∀ c ∈ text, c ≠ 0 ∧ c ≠ 10 ∧ c ≠ 34 ∧ c ≠ 92))

/-- The text does not end the comment that it is in. -/
def NoCommentEnd (text : List UInt8) : Prop := ¬ [42, 47] <:+: text

instance (text : List UInt8) : Decidable (NoCommentEnd text) :=
  inferInstanceAs (Decidable ¬ [42, 47] <:+: text)

/-- What an assembler makes of a line; `none` is an error. -/
structure Assembler where
  bytes : Line → Option (List UInt8)
  asciz : List UInt8 → Option (List UInt8)
  short : ℕ → Option ℕ
  bytes_eq : ∀ l : Line, NoCommentEnd l.comment → bytes l = some l.bytes
  asciz_plain : ∀ text, PlainText text → asciz text = some (text ++ [0])
  asciz_quote : asciz [92, 34] = some [34, 0]
  short_eq : ∀ n, n < 2 ^ 16 → short n = some n

/-- The tables in the object file. -/
def Assembler.assemble (asm : Assembler) (out : Output) : Option Tables := do
  let names ← out.names.mapM asm.bytes
  let tokenTable ← out.tokenTable.mapM asm.asciz
  let tokenIndex ← out.tokenIndex.mapM asm.short
  let seqsOfNames ← out.seqsOfNames.mapM asm.bytes
  return {
    names := names.flatten
    markers := out.markers
    tokenTable := tokenTable.flatten
    tokenIndex := tokenIndex
    seqsOfNames := seqsOfNames.flatten }

/-! ## The property -/

/-- `KSYM_NAME_LEN` of the two kinds of builds. -/
def ksymNameLen (debug : Bool) : ℕ := if debug then 4096 else 1024

/-- The symbols that the tables can be asked for. -/
structure Valid (debug : Bool) (table : List SymEntry) : Prop where
  length_lt : table.length < 2 ^ 24
  sym_ne : ∀ s ∈ table, s.sym ≠ []
  zero_notMem : ∀ s ∈ table, 0 ∉ s.sym
  sym_lt : ∀ s ∈ table, s.sym.length < ksymNameLen debug

/-- Where the record of a symbol starts. -/
def Output.start (out : Output) (i : ℕ) : ℕ := ((out.names.take i).map fun l => l.bytes.length).sum

/-- The kernel reads the symbols from the tables. -/
structure Decodes (debug : Bool) (table : List SymEntry) (out : Output) (t : Tables) : Prop where
  offset : ∀ i < table.length, symOffset t i = out.start i
  name : ∀ i (h : i < table.length) size, table[i].name.length < size →
    ∃ N, ∀ fuel, N ≤ fuel →
      Symbols.expandSymbol t (ksymNameLen debug) fuel (symOffset t i) size = some (table[i].name ++ [0])
  seq : ∃ order : List ℕ, order.Perm (List.range table.length) ∧
    order.Pairwise (fun i j => ∀ a ∈ table[i]?, ∀ b ∈ table[j]?, (compare a.name b.name).isLE) ∧
    ∀ j < table.length, order[j]? = some (symSeq t j)

def relativeBase (table : List SymEntry) : ℕ := (table.head?.map SymEntry.addr).getD 0

/-- The generator refuses symbols that are too far from the first one. -/
def InRange (table : List SymEntry) : Prop :=
  ∀ s ∈ table, (s.addr + 2 ^ 64 - relativeBase table) % 2 ^ 64 ≤ 0xFFFFFFFF

/-- The generator returns unless it refuses the addresses, and the kernel reads what it has written. -/
def RoundTrips (debug : Bool) (asm : Assembler) (table : List SymEntry) : Prop :=
  (InRange table → ∃ out, Returns (generate table) out) ∧
    ∀ out, Returns (generate table) out → ∃ t, asm.assemble out = some t ∧ Decodes debug table out t

/-! ## What the generator writes -/

theorem expandSymbol_returns {best : UInt8 → List UInt8} {l t : List UInt8} (h : Denotes best l t) :
    Returns (fun fuel => expandSymbol best fuel l) t := by
  induction h with
  | nil =>
      refine ⟨1, fun fuel hfuel => ?_⟩
      obtain ⟨fuel, rfl⟩ := Nat.exists_eq_add_of_le' hfuel
      rfl
  | @terminal c l t hc _ ih =>
      refine Returns.succ (f := fun fuel => expandSymbol best fuel l >>= fun rest => .ok ([c] ++ rest))
        (M := 0) (ih.bind (Returns.of_eq fun _ => rfl)) fun fuel _ => ?_
      simp only [expandSymbol, if_pos hc]
      rfl
  | @rule c l t u hself _ _ _ ihu ih =>
      refine Returns.succ (f := fun fuel => expandSymbol best fuel (best c) >>= fun head =>
        expandSymbol best fuel l >>= fun rest => .ok (head ++ rest)) (M := 0)
        (ihu.bind (ih.bind (Returns.of_eq fun _ => rfl))) fun fuel _ => ?_
      simp only [expandSymbol, if_neg hself]
      rfl

/-- The texts of the codes: those in use stand for something, the others have no text. -/
structure Texts (best : UInt8 → List UInt8) (text : UInt8 → List UInt8) : Prop where
  denotes : ∀ c, best c ≠ [] → Denotes best [c] (text c)
  eq_nil : ∀ c, best c = [] → text c = []

theorem Compressed.exists_texts {original : List SymEntry} {s : State} (h : Compressed original s) :
    ∃ text, Texts s.best text := by
  have hex : ∀ c, ∃ t, (s.best c ≠ [] → Denotes s.best [c] t) ∧ (s.best c = [] → t = []) := by
    intro c
    by_cases hc : s.best c = []
    · exact ⟨[], fun hne => absurd hc hne, fun _ => rfl⟩
    · obtain ⟨t, ht⟩ := h.live c hc
      exact ⟨t, fun _ => ht, fun hnil => absurd hnil hc⟩
  choose text hdenotes hnil using hex
  exact ⟨text, hdenotes, hnil⟩

theorem Texts.expand {best : UInt8 → List UInt8} {text : UInt8 → List UInt8} (h : Texts best text)
    (c : UInt8) : Returns (fun fuel => expandSymbol best fuel (best c)) (text c) := by
  by_cases hc : best c = []
  · rw [h.eq_nil c hc, hc]
    exact expandSymbol_returns .nil
  · exact expandSymbol_returns (h.denotes c hc).entry

theorem Texts.tokenTexts {best : UInt8 → List UInt8} {text : UInt8 → List UInt8} (h : Texts best text)
    (l : List UInt8) : Returns (fun fuel => tokenTexts best fuel l) (l.map text) := by
  induction l with
  | nil => exact Returns.of_eq fun _ => rfl
  | cons c l ih => exact (h.expand c).bind (ih.bind (Returns.of_eq fun _ => rfl))

/-- The markers from record `i` on, at the offset `off`. -/
def marks : (i off : ℕ) → List (List UInt8) → List ℕ
  | _, _, [] => []
  | i, off, r :: records =>
      (if i &&& 0xFF = 0 then [off] else []) ++ marks (i + 1) ((off + r.length) % 2 ^ 32) records

/-- The symbols with their places in the table. -/
def numbered : (i : ℕ) → List SymEntry → List SymEntry
  | _, [] => []
  | i, s :: table => { s with seq := i } :: numbered (i + 1) table

theorem writeNames_returns {best : UInt8 → List UInt8} {debug : Bool} {original table : List SymEntry}
    (h : List.Forall₂ (Stands best) original table) (hne : ∀ s ∈ original, s.sym ≠ [])
    (hlt : ∀ s ∈ original, s.sym.length < ksymNameLen debug) (i off : ℕ) :
    Returns (fun fuel => writeNames best fuel i off table)
      { markers := marks i off (table.map fun s => record s.sym)
        lines := List.zipWith (fun o s => ⟨record s.sym, o.sym⟩) original table
        table := numbered i original } := by
  induction h generalizing i off with
  | nil => exact Returns.of_eq fun _ => rfl
  | @cons o s original table hs _ ih =>
      obtain ⟨hone, hne⟩ := List.forall_mem_cons.mp hne
      obtain ⟨holt, hlt⟩ := List.forall_mem_cons.mp hlt
      have hle := hs.denotes.length_le
      have hkeep : ksymNameLen debug ≤ 0x4000 := by cases debug <;> decide
      have hpos : s.sym.length ≠ 0 := by
        intro hzero
        have hdenotes := hs.denotes
        rw [List.length_eq_zero_iff.mp hzero] at hdenotes
        exact hone hdenotes.nil_inv
      have hshort : ¬ s.sym.length > 0x3FFF := by omega
      obtain ⟨M, hM⟩ := expandSymbol_returns hs.denotes
      obtain ⟨N, hN⟩ := ih hne hlt (i + 1) ((off + (record s.sym).length) % 2 ^ 32)
      refine ⟨max M N, fun fuel hfuel => ?_⟩
      have hexpand : expandSymbol best fuel s.sym = .ok o.sym := hM fuel (by omega)
      have hrest : writeNames best fuel (i + 1) ((off + (record s.sym).length) % 2 ^ 32) table = _ :=
        hN fuel (by omega)
      rw [record] at hrest
      simp only [writeNames, if_neg hpos, if_neg hshort, hexpand]
      change (writeNames best fuel (i + 1) ((off + (uleb128 s.sym.length ++ s.sym).length) % 2 ^ 32)
        table >>= _) = _
      rw [hrest]
      simp only [numbered, ← hs.addr_eq]
      rfl

/-- The generator reads the places of the table for nothing else than the order of equal names. -/
theorem writeOffsets_iff (base i : ℕ) (table : List SymEntry) :
    (∃ offsets, writeOffsets base (numbered i table) = .ok offsets) ↔
      ∀ s ∈ table, (s.addr + 2 ^ 64 - base) % 2 ^ 64 ≤ 0xFFFFFFFF := by
  induction table generalizing i with
  | nil => exact ⟨fun _ => nofun, fun _ => ⟨[], rfl⟩⟩
  | cons s table ih =>
      rw [List.forall_mem_cons, ← ih (i + 1)]
      simp only [numbered, writeOffsets]
      by_cases hs : (s.addr + 2 ^ 64 - base) % 2 ^ 64 > 0xFFFFFFFF
      · rw [if_pos hs]
        exact ⟨nofun, fun h => absurd h.1 (Nat.not_le.mpr hs)⟩
      · rw [if_neg hs]
        constructor
        · rintro ⟨offsets, h⟩
          refine ⟨Nat.not_lt.mp hs, ?_⟩
          cases hrest : writeOffsets base (numbered (i + 1) table) with
          | ok rest => exact ⟨rest, rfl⟩
          | error e => rw [hrest] at h; cases h
        · rintro ⟨-, rest, hrest⟩
          rw [hrest]
          exact ⟨_, rfl⟩

/-- What is in the source, for some texts of the codes. -/
structure Written (table : List SymEntry) (text : UInt8 → List UInt8) (out : Output) : Prop where
  texts : Texts (optimizeTokenTable table).best text
  names : out.names =
    List.zipWith (fun o s => ⟨record s.sym, o.sym⟩) table (optimizeTokenTable table).table
  markers : out.markers = marks 0 0 ((optimizeTokenTable table).table.map fun s => record s.sym)
  tokenTable : out.tokenTable = (slots.map text).map asciz
  tokenIndex : out.tokenIndex = bestIdx 0 (slots.map text)
  seqsOfNames : out.seqsOfNames =
    (sortSymbolsByName (numbered 0 table)).map fun s => ⟨seqBytes s.seq, s.sym⟩

theorem Valid.generate {debug : Bool} {table : List SymEntry} (h : Valid debug table) :
    (InRange table → ∃ out, Returns (generate table) out) ∧
      ∀ out, Returns (generate table) out → InRange table ∧ ∃ text, Written table text out := by
  have hcomp := compressed table
  obtain ⟨text, htexts⟩ := hcomp.exists_texts
  obtain ⟨M, hM⟩ := writeNames_returns hcomp.stands h.sym_ne h.sym_lt 0 0
  obtain ⟨N, hN⟩ := htexts.tokenTexts slots
  have hrange := writeOffsets_iff (relativeBase table) 0 table
  have hrun : ∀ fuel, max M N ≤ fuel → Kallsyms.generate table fuel =
      (writeOffsets (relativeBase table) (numbered 0 table) >>= fun offsets => .ok
        { numSyms := (optimizeTokenTable table).table.length
          names := List.zipWith (fun o s => ⟨record s.sym, o.sym⟩) table
            (optimizeTokenTable table).table
          markers := marks 0 0 ((optimizeTokenTable table).table.map fun s => record s.sym)
          tokenTable := (slots.map text).map asciz
          tokenIndex := bestIdx 0 (slots.map text)
          offsets
          seqsOfNames :=
            (sortSymbolsByName (numbered 0 table)).map fun s => ⟨seqBytes s.seq, s.sym⟩ }) := by
    intro fuel hfuel
    have hnames := hM fuel (by omega)
    have htokens := hN fuel (by omega)
    simp only at hnames htokens
    rw [Kallsyms.generate, writeSrc, hnames]
    change (tokenTexts _ fuel slots >>= _) = _
    rw [htokens]
    rfl
  constructor
  · intro hin
    obtain ⟨offsets, hoffsets⟩ := hrange.mpr hin
    simp only [hoffsets] at hrun
    exact ⟨_, max M N, hrun⟩
  · rintro out ⟨K, hK⟩
    have hout := hK (max (max M N) K) (by omega)
    rw [hrun _ (by omega)] at hout
    cases hoffsets : writeOffsets (relativeBase table) (numbered 0 table) with
    | error e => rw [hoffsets] at hout; cases hout
    | ok offsets =>
        rw [hoffsets] at hout
        obtain rfl := Except.ok.inj hout
        exact ⟨hrange.mp ⟨offsets, hoffsets⟩, text, htexts, rfl, rfl, rfl, rfl, rfl⟩

/-! ## What can be encoded -/

/-- No line of the source is beyond what is known of the assembler, and no number is cut off. -/
structure Encodable (table : List SymEntry) : Prop where
  plain : ∀ s ∈ table, ∀ c ∈ s.sym, c ≠ 10 ∧ c ≠ 92
  no_comment_end : ∀ s ∈ table, NoCommentEnd s.sym
  quote : (∃ s ∈ table, 34 ∈ s.sym) → ∀ c, 34 ∈ (optimizeTokenTable table).best c → c = 34
  index_lt : ∀ out, Returns (generate table) out → ∀ n ∈ out.tokenIndex, n < 2 ^ 16
  start_lt : ∀ out, Returns (generate table) out → ∀ k, 256 * k < table.length →
    out.start (256 * k) < 2 ^ 32

/-- The characters of a text come from the names. -/
theorem Written.mem_text {table : List SymEntry} {text : UInt8 → List UInt8} {out : Output}
    (h : Written table text out) {c ch : UInt8} (hch : ch ∈ text c) :
    (optimizeTokenTable table).best ch = [ch] ∧ ∃ s ∈ table, ch ∈ s.sym := by
  have hc : (optimizeTokenTable table).best c ≠ [] := by
    intro hnil
    rw [h.texts.eq_nil c hnil] at hch
    cases hch
  have hterminal := (h.texts.denotes c hc).terminal_of_mem ch hch
  exact ⟨hterminal, List.mem_flatMap.mp (((compressed table).terminal_iff ch).mp hterminal)⟩

/-- The quote is a text of its own and in no other one. -/
theorem Written.quote {table : List SymEntry} {text : UInt8 → List UInt8} {out : Output}
    (h : Written table text out)
    (hquote : (∃ s ∈ table, 34 ∈ s.sym) → ∀ c, 34 ∈ (optimizeTokenTable table).best c → c = 34)
    {c : UInt8} (hmem : 34 ∈ text c) : text c = [34] := by
  obtain ⟨hterminal, hname⟩ := h.mem_text hmem
  have hc : (optimizeTokenTable table).best c ≠ [] := by
    intro hnil
    rw [h.texts.eq_nil c hnil] at hmem
    cases hmem
  have hdenotes := h.texts.denotes c hc
  by_cases heq : c = 34
  · subst heq
    exact hdenotes.unique (.terminal hterminal .nil)
  · refine absurd hmem (hdenotes.notMem (hquote hname) ?_)
    rw [List.mem_singleton]
    exact Ne.symm heq

/-- The line of a token assembles to its text. -/
theorem Written.asciz_eq {debug : Bool} {table : List SymEntry} {text : UInt8 → List UInt8}
    {out : Output} (h : Written table text out) (hv : Valid debug table) (he : Encodable table)
    (asm : Assembler) (c : UInt8) : asm.asciz (asciz (text c)) = some (text c ++ [0]) := by
  rw [asciz]
  split_ifs with hquote
  · rw [asm.asciz_quote, hquote]
    rfl
  · refine asm.asciz_plain _ fun ch hch => ?_
    obtain ⟨-, s, hs, hmem⟩ := h.mem_text hch
    obtain ⟨hline, hslash⟩ := he.plain s hs ch hmem
    refine ⟨fun hzero => hv.zero_notMem s hs (hzero ▸ hmem), hline, fun h34 => ?_, hslash⟩
    exact hquote (h.quote he.quote (h34 ▸ hch))

theorem mapM_eq_some {α β : Type} {f : α → Option β} {g : α → β} {l : List α}
    (h : ∀ a ∈ l, f a = some (g a)) : l.mapM f = some (l.map g) := by
  induction l with
  | nil => rfl
  | cons a l ih =>
      rw [List.mapM_cons, h a (List.mem_cons_self ..), ih fun b hb => h b (List.mem_cons_of_mem _ hb)]
      rfl

theorem exists_of_mapM {α β : Type} {f : α → Option β} {l : List α} {r : List β}
    (h : l.mapM f = some r) : ∀ a ∈ l, ∃ b, f a = some b := by
  induction l generalizing r with
  | nil => exact nofun
  | cons a l ih =>
      rw [List.mapM_cons] at h
      obtain ⟨b, hb, h⟩ := Option.bind_eq_some_iff.mp h
      obtain ⟨r, hr, -⟩ := Option.bind_eq_some_iff.mp h
      exact List.forall_mem_cons.mpr ⟨⟨b, hb⟩, ih hr⟩

/-- The tables of an assembled source. -/
structure Assembled (table : List SymEntry) (text : UInt8 → List UInt8) (t : Tables) : Prop where
  names : t.names = ((optimizeTokenTable table).table.map fun s => record s.sym).flatten
  markers : t.markers = marks 0 0 ((optimizeTokenTable table).table.map fun s => record s.sym)
  tokenTable : t.tokenTable = ((slots.map text).map (· ++ [0])).flatten
  tokenIndex : t.tokenIndex = bestIdx 0 (slots.map text)
  seqsOfNames : t.seqsOfNames =
    ((sortSymbolsByName (numbered 0 table)).map fun s => seqBytes s.seq).flatten

theorem mem_numbered {table : List SymEntry} {i : ℕ} {s : SymEntry} (h : s ∈ numbered i table) :
    ∃ o ∈ table[s.seq - i]?, i ≤ s.seq ∧ s.sym = o.sym := by
  induction table generalizing i with
  | nil => cases h
  | cons o table ih =>
      rcases List.mem_cons.mp h with rfl | h
      · exact ⟨o, by simp, Nat.le_refl i, rfl⟩
      · obtain ⟨o', ho', hle, hsym⟩ := ih h
        have hsub : s.seq - i = (s.seq - (i + 1)) + 1 := by omega
        exact ⟨o', by rwa [hsub, List.getElem?_cons_succ], by omega, hsym⟩

theorem mem_sorted {table : List SymEntry} {s : SymEntry}
    (h : s ∈ sortSymbolsByName (numbered 0 table)) : ∃ o ∈ table[s.seq]?, s.sym = o.sym := by
  obtain ⟨o, ho, -, hsym⟩ := mem_numbered ((List.mergeSort_perm _ _).mem_iff.mp h)
  exact ⟨o, ho, hsym⟩

theorem zipWith_lines {best : UInt8 → List UInt8} {original table : List SymEntry}
    (h : List.Forall₂ (Stands best) original table) :
    (List.zipWith (fun o s => (⟨record s.sym, o.sym⟩ : Line)) original table).map Line.bytes =
        (table.map fun s => record s.sym) ∧
      (List.zipWith (fun o s => (⟨record s.sym, o.sym⟩ : Line)) original table).map Line.comment =
        original.map SymEntry.sym := by
  induction h with
  | nil => exact ⟨rfl, rfl⟩
  | cons _ _ ih =>
      simp only [List.zipWith_cons_cons, List.map_cons]
      exact ⟨congrArg _ ih.1, congrArg _ ih.2⟩

/-- The lines of the names, record by record and comment by comment. -/
theorem Written.names_map {table : List SymEntry} {text : UInt8 → List UInt8} {out : Output}
    (h : Written table text out) :
    out.names.map Line.bytes = ((optimizeTokenTable table).table.map fun s => record s.sym) ∧
      out.names.map Line.comment = table.map SymEntry.sym := by
  rw [h.names]
  exact zipWith_lines (compressed table).stands

theorem Written.assemble {debug : Bool} {table : List SymEntry} {text : UInt8 → List UInt8}
    {out : Output} (h : Written table text out) (hout : Returns (generate table) out)
    (hv : Valid debug table) (he : Encodable table) (asm : Assembler) :
    ∃ t, asm.assemble out = some t ∧ Assembled table text t := by
  have hnames : out.names.mapM asm.bytes = some (out.names.map Line.bytes) := by
    refine mapM_eq_some fun l hl => asm.bytes_eq l ?_
    have hcomment := List.mem_map_of_mem (f := Line.comment) hl
    rw [h.names_map.2] at hcomment
    obtain ⟨s, hs, hsym⟩ := List.mem_map.mp hcomment
    exact hsym ▸ he.no_comment_end s hs
  have htokens : out.tokenTable.mapM asm.asciz = some ((slots.map text).map (· ++ [0])) := by
    have hline : ∀ c ∈ slots, asm.asciz (asciz (text c)) = some (text c ++ [0]) :=
      fun c _ => h.asciz_eq hv he asm c
    rw [h.tokenTable, List.map_map, List.mapM_map, List.map_map]
    exact mapM_eq_some hline
  have hindex : out.tokenIndex.mapM asm.short = some out.tokenIndex := by
    have hshort := mapM_eq_some (g := id) fun n hn => asm.short_eq n (he.index_lt out hout n hn)
    rwa [List.map_id] at hshort
  have hseqs : out.seqsOfNames.mapM asm.bytes = some (out.seqsOfNames.map Line.bytes) := by
    refine mapM_eq_some fun l hl => asm.bytes_eq l ?_
    rw [h.seqsOfNames] at hl
    obtain ⟨s, hs, rfl⟩ := List.mem_map.mp hl
    obtain ⟨o, ho, hsym⟩ := mem_sorted hs
    change NoCommentEnd s.sym
    rw [hsym]
    exact he.no_comment_end o (List.mem_of_getElem? ho)
  refine ⟨_, by rw [Assembler.assemble, hnames, htokens, hindex, hseqs]; rfl, ?_⟩
  refine ⟨by rw [h.names_map.1], h.markers, rfl, h.tokenIndex, ?_⟩
  rw [h.seqsOfNames]
  exact congrArg List.flatten List.map_map

/-! ## The names -/

/-- The marker of a block is the offset of its first record modulo `2 ^ 32`. -/
theorem getElem?_marks {i off k : ℕ} {records : List (List UInt8)} (hoff : off < 2 ^ 32)
    (hi : i ≤ 256 * k) (hk : 256 * k < i + records.length) :
    (marks i off records)[k - (i + 255) / 256]? =
      some ((off + ((records.take (256 * k - i)).map List.length).sum) % 2 ^ 32) := by
  induction records generalizing i off with
  | nil =>
      rw [List.length_nil] at hk
      omega
  | cons r records ih =>
      rw [List.length_cons] at hk
      have hmask : i &&& 0xFF = i % 256 := Nat.and_two_pow_sub_one_eq_mod i 8
      rw [marks, hmask]
      by_cases hfirst : 256 * k = i
      · have hzero : 256 * k - i = 0 := by omega
        have hindex : k - (i + 255) / 256 = 0 := by omega
        rw [if_pos (by omega), hzero, hindex]
        exact congrArg some (Nat.mod_eq_of_lt hoff).symm
      · have hrest : (marks (i + 1) ((off + r.length) % 2 ^ 32) records)[k - (i + 1 + 255) / 256]? =
            some ((off + r.length +
              ((records.take (256 * k - (i + 1))).map List.length).sum) % 2 ^ 32) :=
          (ih (Nat.mod_lt _ (by omega)) (by omega) (by omega)).trans (by rw [Nat.mod_add_mod])
        have hsub : 256 * k - i = (256 * k - (i + 1)) + 1 := by omega
        rw [hsub, List.take_succ_cons, List.map_cons, List.sum_cons, ← Nat.add_assoc, ← hrest]
        split_ifs with hblock
        · have hindex : k - (i + 255) / 256 = (k - (i + 1 + 255) / 256) + 1 := by omega
          rw [hindex]
          rfl
        · have hindex : k - (i + 255) / 256 = k - (i + 1 + 255) / 256 := by omega
          rw [hindex]
          rfl

section Names

variable {debug : Bool} {table : List SymEntry} {text : UInt8 → List UInt8} {out : Output} {t : Tables}

theorem Written.start_eq (h : Written table text out) (i : ℕ) : out.start i =
    ((((optimizeTokenTable table).table.map fun s => record s.sym).take i).map List.length).sum := by
  rw [Output.start, ← h.names_map.1, ← List.map_take, List.map_map]
  rfl

/-- The record of symbol `i` starts where the ones in front of it end. -/
theorem Assembled.bytesAt_record (ha : Assembled table text t) (h : Written table text out) {i : ℕ}
    {s : SymEntry} (hi : (optimizeTokenTable table).table[i]? = some s) :
    BytesAt t.name (out.start i) (record s.sym) := by
  have hnames : BytesAt t.name 0 t.names := BytesAt.of_getD t.names
  have hrecord : ((optimizeTokenTable table).table.map fun s => record s.sym)[i]? =
      some (record s.sym) := by
    rw [List.getElem?_map, hi]
    rfl
  rw [ha.names] at hnames
  rw [h.start_eq, ← Nat.zero_add (List.sum _)]
  exact hnames.flatten hrecord

/-- The compressed symbol at a place of the table. -/
theorem exists_compressed {o : SymEntry} {i : ℕ} (hi : table[i]? = some o) :
    ∃ s, (optimizeTokenTable table).table[i]? = some s ∧
      Stands (optimizeTokenTable table).best o s := by
  have hstands := (compressed table).stands
  have hlength := hstands.length_eq
  obtain ⟨hlt, rfl⟩ := List.getElem?_eq_some_iff.mp hi
  have hlt' : i < (optimizeTokenTable table).table.length := hlength ▸ hlt
  exact ⟨_, List.getElem?_eq_getElem hlt', hstands.get hlt hlt'⟩

theorem Valid.length_le (hv : Valid debug table) {o : SymEntry} (ho : o ∈ table) :
    o.sym.length ≤ 0x3FFF := by
  have hlt := hv.sym_lt o ho
  have hkeep : ksymNameLen debug ≤ 0x4000 := by cases debug <;> decide
  omega

/-- One turn of the loop in `sym_offset`: from a record to the next one. -/
theorem Assembled.skipName_start (ha : Assembled table text t) (h : Written table text out)
    (hv : Valid debug table) {i : ℕ} (hi : i < table.length) :
    skipName t (out.start i) = out.start (i + 1) := by
  obtain ⟨s, hs, hstands⟩ := exists_compressed (List.getElem?_eq_getElem hi)
  have hle := hstands.denotes.length_le
  have hlen := hv.length_le (List.getElem_mem hi)
  have hrecord : ((optimizeTokenTable table).table.map fun s => record s.sym)[i]? =
      some (record s.sym) := by
    rw [List.getElem?_map, hs]
    rfl
  rw [skipName_record (ha.bytesAt_record h hs) (by omega), h.start_eq, h.start_eq,
    List.take_add_one, hrecord]
  simp

theorem Assembled.iterate_skipName (ha : Assembled table text t) (h : Written table text out)
    (hv : Valid debug table) {i k : ℕ} (hi : i + k ≤ table.length) :
    (skipName t)^[k] (out.start i) = out.start (i + k) := by
  induction k with
  | zero => rfl
  | succ k ih =>
      rw [Function.iterate_succ_apply', ih (by omega), ha.skipName_start h hv (by omega)]
      rfl

/-- The marker of a block, as long as it is not cut off. -/
theorem Written.marker_eq (h : Written table text out) (hm : t.markers = out.markers) {k : ℕ}
    (hk : 256 * k < table.length) : t.markers.getD k 0 = out.start (256 * k) % 2 ^ 32 := by
  have hlength := (compressed table).stands.length_eq
  have hmark : (marks 0 0 ((optimizeTokenTable table).table.map fun s => record s.sym))[k]? =
      some ((0 + ((((optimizeTokenTable table).table.map fun s => record s.sym).take
        (256 * k)).map List.length).sum) % 2 ^ 32) :=
    getElem?_marks (by omega) (Nat.zero_le _) (by rw [List.length_map]; omega)
  rw [hm, h.markers, List.getD_eq_getElem?_getD, hmark, Nat.zero_add, ← h.start_eq]
  rfl

theorem Assembled.symOffset_eq (ha : Assembled table text t) (h : Written table text out)
    (hv : Valid debug table) {i : ℕ} (hi : i < table.length)
    (hlt : out.start (256 * (i / 256)) < 2 ^ 32) : symOffset t i = out.start i := by
  have hmask : i &&& 0xFF = i % 256 := Nat.and_two_pow_sub_one_eq_mod i 8
  rw [symOffset, hmask, Nat.shiftRight_eq_div_pow,
    h.marker_eq (ha.markers.trans h.markers.symm) (by omega), Nat.mod_eq_of_lt hlt,
    ha.iterate_skipName h hv (by omega)]
  congr 1
  omega

/-- Each code is the token with its text. -/
theorem getElem?_bestIdx {texts : List (List UInt8)} {off k : ℕ} (hk : k < texts.length) :
    (bestIdx off texts)[k]? = some (off + (((texts.map (· ++ [0])).take k).map List.length).sum) := by
  induction texts generalizing off k with
  | nil => cases hk
  | cons s texts ih =>
      cases k with
      | zero => rfl
      | succ k =>
          rw [List.length_cons] at hk
          rw [bestIdx, List.getElem?_cons_succ, ih (by omega), List.map_cons, List.take_succ_cons,
            List.map_cons, List.sum_cons, List.length_append, List.length_singleton]
          congr 1
          omega

theorem getElem?_slots (c : UInt8) : slots[c.toNat]? = some c := by
  rw [slots, List.getElem?_map, List.getElem?_range c.toNat_lt]
  exact congrArg some (UInt8.ofNat_toNat)

theorem Assembled.bytesAt_token (ha : Assembled table text t) (c : UInt8) :
    BytesAt t.token (t.tokenIndex.getD c.toNat 0) (text c ++ [0]) := by
  have htable : BytesAt t.token 0 t.tokenTable := BytesAt.of_getD t.tokenTable
  have htext : ((slots.map text).map (· ++ [0]))[c.toNat]? = some (text c ++ [0]) := by
    rw [List.getElem?_map, List.getElem?_map, getElem?_slots]
    rfl
  have hlt : c.toNat < (slots.map text).length := by
    rw [List.length_map, slots, List.length_map, List.length_range]
    exact c.toNat_lt
  rw [ha.tokenTable] at htable
  rw [List.getD_eq_getElem?_getD, ha.tokenIndex, getElem?_bestIdx hlt]
  exact htable.flatten htext

theorem Assembled.expandSymbol_eq (ha : Assembled table text t) (h : Written table text out)
    (hv : Valid debug table) {i size : ℕ} (hi : i < table.length)
    (hsize : table[i].name.length < size) :
    ∃ N, ∀ fuel, N ≤ fuel → Symbols.expandSymbol t (ksymNameLen debug) fuel (out.start i) size =
      some (table[i].name ++ [0]) := by
  obtain ⟨s, hs, hstands⟩ := exists_compressed (List.getElem?_eq_getElem hi)
  have hmem := List.getElem_mem hi
  obtain ⟨type, name, hsym⟩ := List.exists_cons_of_ne_nil (hv.sym_ne _ hmem)
  have hname : table[i].name = name := by rw [SymEntry.name, hsym, List.tail_cons]
  have hlt := hv.sym_lt _ hmem
  have hle := hstands.denotes.length_le
  have hlen := hv.length_le hmem
  have hcodes : s.sym.flatMap text = type :: name := by
    rw [← hsym]
    exact (hstands.denotes.eq_flatMap fun c hc =>
      h.texts.denotes c (hstands.denotes.ne_nil c hc)).symm
  rw [hsym, List.length_cons] at hlt
  rw [hname] at hsize ⊢
  refine ⟨name.length + 2, fun fuel hfuel => ?_⟩
  exact expandSymbol_record (ha.bytesAt_record h hs) (by omega) (fun c _ => ha.bytesAt_token c) hcodes
    (hsym ▸ hv.zero_notMem _ hmem) hlt hsize (by omega)

/-! ## The order of the names -/

theorem map_seq_numbered (table : List SymEntry) (i : ℕ) :
    (numbered i table).map SymEntry.seq = List.range' i table.length := by
  induction table generalizing i with
  | nil => rfl
  | cons s table ih =>
      rw [numbered, List.map_cons, ih, List.length_cons, List.range'_succ]

instance : Std.TransCmp compareNames :=
  inferInstanceAs (Std.TransCmp (compareLex (compareOn SymEntry.name)
    (compareLex (compareOn SymEntry.addr) (compareOn SymEntry.seq))))

theorem pairwise_sorted (table : List SymEntry) :
    (sortSymbolsByName table).Pairwise fun a b => (compareNames a b).isLE := by
  refine List.pairwise_mergeSort (fun a b c => Std.TransCmp.isLE_trans) (fun a b => ?_) table
  have hswap : compareNames a b = (compareNames b a).swap := Std.OrientedCmp.eq_swap
  cases hba : compareNames b a <;> simp [hswap, hba]

theorem isLE_name {a b : SymEntry} (h : (compareNames a b).isLE) : (compare a.name b.name).isLE := by
  rw [compareNames] at h
  cases hab : compare a.name b.name with
  | gt => rw [hab] at h; exact absurd h Bool.false_ne_true
  | lt | eq => rfl

theorem Assembled.symSeq_eq (ha : Assembled table text t) (hv : Valid debug table) :
    ∃ order : List ℕ, order.Perm (List.range table.length) ∧
      order.Pairwise (fun i j => ∀ a ∈ table[i]?, ∀ b ∈ table[j]?, (compare a.name b.name).isLE) ∧
      ∀ j < table.length, order[j]? = some (symSeq t j) := by
  have hperm : ((sortSymbolsByName (numbered 0 table)).map SymEntry.seq).Perm
      (List.range table.length) := by
    rw [List.range_eq_range', ← map_seq_numbered]
    exact (List.mergeSort_perm _ _).map SymEntry.seq
  refine ⟨_, hperm, ?_, fun j hj => ?_⟩
  · rw [List.pairwise_map]
    refine (pairwise_sorted _).imp_of_mem fun {a b} hamem hbmem hle o ho o' ho' => ?_
    -- an entry of the sorted table has the name of its place
    obtain ⟨oa, hoa, hasym⟩ := mem_sorted hamem
    obtain ⟨ob, hob, hbsym⟩ := mem_sorted hbmem
    obtain rfl := Option.mem_unique ho hoa
    obtain rfl := Option.mem_unique ho' hob
    have hnames := isLE_name hle
    rwa [SymEntry.name, SymEntry.name, hasym, hbsym] at hnames
  · have hlength := hperm.length_eq
    rw [List.length_range, List.length_map] at hlength
    have hlt : j < (sortSymbolsByName (numbered 0 table)).length := hlength ▸ hj
    have hget := List.getElem?_eq_getElem hlt
    obtain ⟨o, ho, -⟩ := mem_sorted (List.getElem_mem hlt)
    obtain ⟨hplace, -⟩ := List.getElem?_eq_some_iff.mp ho
    have hbytes : BytesAt (fun a => t.seqsOfNames.getD a 0) 0 t.seqsOfNames :=
      BytesAt.of_getD t.seqsOfNames
    have hpiece : ((sortSymbolsByName (numbered 0 table)).map fun s => seqBytes s.seq)[j]? =
        some (seqBytes (sortSymbolsByName (numbered 0 table))[j].seq) := by
      rw [List.getElem?_map, hget]
      rfl
    have hthree : ∀ l : List SymEntry,
        ((l.map fun s => seqBytes s.seq).map List.length).sum = 3 * l.length := by
      intro l
      induction l with
      | nil => rfl
      | cons s l ih =>
          rw [List.map_cons, List.map_cons, List.sum_cons, ih, List.length_cons]
          change 3 + 3 * l.length = 3 * (l.length + 1)
          omega
    rw [ha.seqsOfNames] at hbytes
    have hat := hbytes.flatten hpiece
    rw [← List.map_take, hthree, List.length_take, Nat.min_eq_left hlt.le, Nat.zero_add] at hat
    rw [List.getElem?_map, hget, Symbols.symSeq_eq (ha.seqsOfNames ▸ hat)
      (hplace.trans hv.length_lt)]
    rfl

theorem Assembled.decodes (ha : Assembled table text t) (h : Written table text out)
    (hv : Valid debug table)
    (hstart : ∀ k, 256 * k < table.length → out.start (256 * k) < 2 ^ 32) :
    Decodes debug table out t where
  offset i hi := ha.symOffset_eq h hv hi (hstart _ (by omega))
  name i hi size hsize := by
    rw [ha.symOffset_eq h hv hi (hstart _ (by omega))]
    exact ha.expandSymbol_eq h hv hi hsize
  seq := ha.symSeq_eq hv

end Names

/-! ## The round trip -/

theorem Encodable.roundTrips {debug : Bool} {table : List SymEntry} (he : Encodable table)
    (hv : Valid debug table) (asm : Assembler) : RoundTrips debug asm table := by
  refine ⟨hv.generate.1, fun out hout => ?_⟩
  obtain ⟨-, text, hwritten⟩ := hv.generate.2 out hout
  obtain ⟨t, ht, hassembled⟩ := hwritten.assemble hout hv he asm
  exact ⟨t, ht, hassembled.decodes hwritten hv (he.start_lt out hout)⟩

/-- An assembler that refuses all other lines. -/
def strict : Assembler where
  bytes l := if NoCommentEnd l.comment then some l.bytes else none
  asciz text :=
    if PlainText text then some (text ++ [0])
    else if text = [92, 34] then some [34, 0]
    else none
  short n := if n < 2 ^ 16 then some n else none
  bytes_eq _ h := if_pos h
  asciz_plain _ h := if_pos h
  asciz_quote := by decide
  short_eq _ h := if_pos h

theorem NoCommentEnd.of_strict {l : Line} {bytes : List UInt8} (h : strict.bytes l = some bytes) :
    NoCommentEnd l.comment := by
  by_contra hcomment
  rw [show strict.bytes l = none from if_neg hcomment] at h
  cases h

/-- A text that this assembler takes is plain, or it is the quote, or it has a backslash. -/
theorem of_strict_asciz {text bytes : List UInt8} (h : strict.asciz (asciz text) = some bytes) :
    PlainText text ∨ text = [34] ∨ text = [92, 34] := by
  by_cases hquote : text = [34]
  · exact .inr (.inl hquote)
  · rw [show asciz text = text from if_neg hquote] at h
    by_cases hplain : PlainText text
    · exact .inl hplain
    · rw [show strict.asciz text = if text = [92, 34] then some [34, 0] else none from
        if_neg hplain] at h
      split_ifs at h with hslash
      exact .inr (.inr hslash)

theorem Assembler.of_assemble {asm : Assembler} {out : Output} {t : Tables}
    (h : asm.assemble out = some t) : (∀ l ∈ out.names, ∃ bytes, asm.bytes l = some bytes) ∧
      (∀ text ∈ out.tokenTable, ∃ bytes, asm.asciz text = some bytes) ∧
      (∀ n ∈ out.tokenIndex, ∃ n', asm.short n = some n') ∧ t.markers = out.markers := by
  obtain ⟨names, hnames, h⟩ := Option.bind_eq_some_iff.mp h
  obtain ⟨tokens, htokens, h⟩ := Option.bind_eq_some_iff.mp h
  obtain ⟨index, hindex, h⟩ := Option.bind_eq_some_iff.mp h
  obtain ⟨seqs, -, h⟩ := Option.bind_eq_some_iff.mp h
  obtain rfl := Option.some.inj h
  exact ⟨exists_of_mapM hnames, exists_of_mapM htokens, exists_of_mapM hindex, rfl⟩

/-- What the strict assembler takes and the kernel reads is within the limits. -/
theorem RoundTrips.encodable {debug : Bool} {table : List SymEntry} (h : RoundTrips debug strict table)
    (hv : Valid debug table) (hrange : InRange table) : Encodable table := by
  obtain ⟨out, hout⟩ := h.1 hrange
  obtain ⟨-, text, hwritten⟩ := hv.generate.2 out hout
  obtain ⟨t, ht, hdecodes⟩ := h.2 out hout
  obtain ⟨hnames, htokens, hindex, hmarkers⟩ := Assembler.of_assemble ht
  have htext : ∀ c, PlainText (text c) ∨ text c = [34] ∨ text c = [92, 34] := by
    intro c
    have hline : asciz (text c) ∈ out.tokenTable := by
      rw [hwritten.tokenTable]
      exact List.mem_map_of_mem (List.mem_map_of_mem (List.mem_of_getElem? (getElem?_slots c)))
    obtain ⟨bytes, hbytes⟩ := htokens _ hline
    exact of_strict_asciz hbytes
  have hself : ∀ s ∈ table, ∀ c ∈ s.sym,
      (optimizeTokenTable table).best c = [c] ∧ text c = [c] := by
    intro s hs c hc
    have hterminal := ((compressed table).terminal_iff c).mpr (List.mem_flatMap.mpr ⟨s, hs, hc⟩)
    have hne : (optimizeTokenTable table).best c ≠ [] := by
      rw [hterminal]
      exact List.cons_ne_nil _ _
    exact ⟨hterminal, (hwritten.texts.denotes c hne).unique (.terminal hterminal .nil)⟩
  have hplain : ∀ s ∈ table, ∀ c ∈ s.sym, c ≠ 10 ∧ c ≠ 92 := by
    intro s hs c hc
    have hc' := htext c
    rw [(hself s hs c hc).2] at hc'
    rcases hc' with hplain | hquote | hslash
    · obtain ⟨-, hline, -, hslash⟩ := hplain c (List.mem_singleton_self c)
      exact ⟨hline, hslash⟩
    · obtain rfl : c = 34 := (List.cons.inj hquote).1
      decide
    · cases (List.cons.inj hslash).2
  refine ⟨hplain, fun s hs => ?_, ?_, fun out' hout' n hn => ?_, fun out' hout' k hk => ?_⟩
  · have hcomment : s.sym ∈ out.names.map Line.comment := by
      rw [hwritten.names_map.2]
      exact List.mem_map_of_mem hs
    obtain ⟨l, hl, hsym⟩ := List.mem_map.mp hcomment
    obtain ⟨bytes, hbytes⟩ := hnames l hl
    exact hsym ▸ NoCommentEnd.of_strict hbytes
  · rintro ⟨s, hs, hquote⟩ c hc
    have hne : (optimizeTokenTable table).best c ≠ [] := List.ne_nil_of_mem hc
    have hdenotes := (hwritten.texts.denotes c hne).entry
    have hmem := hdenotes.mem_of_terminal (hself s hs 34 hquote).1 hc
    rcases htext c with hplain' | hone | htwo
    · exact absurd rfl (hplain' 34 hmem).2.2.1
    · -- a pair stands for at least two characters
      have hle := hdenotes.length_le
      rw [hone] at hle
      rcases (compressed table).shape c with hnil | hself' | ⟨a, b, hpair⟩
      · exact absurd hnil hne
      · rw [hself'] at hc
        exact (List.mem_singleton.mp hc).symm
      · rw [hpair] at hle
        simp at hle
    · have hslash : (92 : UInt8) ∈ text c := by simp [htwo]
      obtain ⟨-, s', hs', hmem'⟩ := hwritten.mem_text hslash
      exact absurd rfl (hplain s' hs' 92 hmem').2
  · obtain rfl := hout.unique hout'
    obtain ⟨n', hn'⟩ := hindex n hn
    by_contra hlarge
    rw [show strict.short n = none from if_neg hlarge] at hn'
    cases hn'
  · obtain rfl := hout.unique hout'
    have hoffset := hdecodes.offset (256 * k) hk
    have hmask : 256 * k &&& 0xFF = 256 * k % 256 := Nat.and_two_pow_sub_one_eq_mod _ 8
    rw [symOffset, hmask, Nat.mul_mod_right, Nat.shiftRight_eq_div_pow,
      Nat.mul_div_cancel_left k (by omega), hwritten.marker_eq hmarkers hk] at hoffset
    rw [← hoffset]
    exact Nat.mod_lt _ (by omega)

/-- With every assembler of which no more is known than this, the kernel reads back the symbols if
and only if the generator refuses them or they can be encoded. -/
theorem round_trip_iff {debug : Bool} {table : List SymEntry} (hv : Valid debug table) :
    (∀ asm, RoundTrips debug asm table) ↔ (InRange table → Encodable table) := by
  constructor
  · exact fun h hrange => (h strict).encodable hv hrange
  · intro h asm
    by_cases hrange : InRange table
    · exact (h hrange).roundTrips hv asm
    · refine ⟨fun hin => absurd hin hrange, fun out hout => ?_⟩
      exact absurd (hv.generate.2 out hout).1 hrange

/-- The symbol `f` of type `T`. -/
def plainSymbol : SymEntry := ⟨0, 0, [84, 102]⟩

theorem valid_one (s : SymEntry) (hne : s.sym ≠ []) (hzero : 0 ∉ s.sym) (hlt : s.sym.length < 1024) :
    Valid false [s] where
  length_lt := (by decide : 1 < 2 ^ 24)
  sym_ne := List.forall_mem_singleton.mpr hne
  zero_notMem := List.forall_mem_singleton.mpr hzero
  sym_lt := List.forall_mem_singleton.mpr hlt

theorem round_trip_iff_plain : Valid false [plainSymbol] ∧
    ((∀ asm, RoundTrips false asm [plainSymbol]) ↔
      (InRange [plainSymbol] → Encodable [plainSymbol])) := by
  have hv := valid_one plainSymbol (by decide) (by decide) (by decide)
  exact ⟨hv, round_trip_iff hv⟩

/-! ## A quote in a name -/

/-- Between functions, so that the kernel does not evaluate the loop to compare the two sides. -/
theorem findBestToken_def : findBestToken = fun profit => ((List.range 0x10000).foldl
    (fun (r : ℕ × ℤ) i => if r.2 < (profit i).toInt then (i, (profit i).toInt) else r)
      (0, -10000)).1 := rfl

/-- The only pair with a positive profit is the best one. -/
theorem findBestToken_eq {profit : Profit} {p : ℕ} (hp : p < 0x10000) (hpos : 0 < (profit p).toInt)
    (hother : ∀ q, q ≠ p → (profit q).toInt ≤ 0) : findBestToken profit = p := by
  have hfold : ∀ n, (p < n ∧ (List.range n).foldl (fun (r : ℕ × ℤ) i =>
        if r.2 < (profit i).toInt then (i, (profit i).toInt) else r) (0, -10000) =
          (p, (profit p).toInt)) ∨
      (n ≤ p ∧ ((List.range n).foldl (fun (r : ℕ × ℤ) i =>
        if r.2 < (profit i).toInt then (i, (profit i).toInt) else r) (0, -10000)).2 ≤ 0) := by
    intro n
    induction n with
    | zero => exact .inr ⟨Nat.zero_le p, (by decide : (-10000 : ℤ) ≤ 0)⟩
    | succ n ih =>
        rw [List.range_succ, List.foldl_append, List.foldl_cons, List.foldl_nil]
        rcases ih with ⟨hlt, heq⟩ | ⟨hle, hneg⟩
        · have hn := hother n (by omega)
          rw [heq, if_neg (by omega)]
          exact .inl ⟨by omega, rfl⟩
        · by_cases hnp : n = p
          · subst hnp
            rw [if_pos (by omega)]
            exact .inl ⟨Nat.lt_succ_self n, rfl⟩
          · refine .inr ⟨by omega, ?_⟩
            have hn := hother n hnp
            split_ifs
            · exact hn
            · exact hneg
  rcases hfold 0x10000 with ⟨-, heq⟩ | ⟨hle, -⟩
  · rw [findBestToken_def]
    exact congrArg Prod.fst heq
  · omega

/-- A slot that is taken stays as it is. -/
theorem State.slot_best {s s' : State} {i c : UInt8} (h : s.slot i = some s') (hc : s.best c ≠ []) :
    s'.best c = s.best c := by
  simp only [State.slot] at h
  split_ifs at h with hi
  · obtain rfl := Option.some.inj h
    have hci : c ≠ i := fun hci => hc (by rw [hci, hi])
    exact Function.update_of_ne hci _ _
  · obtain rfl := Option.some.inj h
    rfl

theorem optimizeResult_best {s : State} {c : UInt8} (hc : s.best c ≠ []) (n : ℕ) :
    (optimizeResult n s).best c = s.best c := by
  induction n generalizing s with
  | zero => rfl
  | succ n ih =>
      rw [optimizeResult]
      cases hs : s.slot (UInt8.ofNat n) with
      | none => rfl
      | some s' =>
          have hsame := State.slot_best hs hc
          exact (ih (hsame ▸ hc)).trans hsame

/-- The symbol `"` of type `T`. -/
def quoteSymbol : SymEntry := ⟨0, 0, [84, 34]⟩

/-- The type and the quote become one token. -/
theorem best_quoteSymbol : (optimizeTokenTable [quoteSymbol]).best 255 = [84, 34] := by
  have hprofit : ∀ p, buildInitialTokenTable [quoteSymbol] p = if p = 8788 then 1 else 0 := by
    intro p
    rw [buildInitialTokenTable_apply]
    have hcount : pairCount [quoteSymbol] p = if p = 8788 then 1 else 0 := by
      rw [pairCount, show ([quoteSymbol].flatMap fun s => pairs s.sym) = [8788] from rfl,
        List.count_singleton]
      by_cases hp : p = 8788
      · simp [hp]
      · rw [if_neg (by simpa using Ne.symm hp), if_neg hp]
    rw [hcount]
    split_ifs <;> rfl
  have hbest : findBestToken (buildInitialTokenTable [quoteSymbol]) = 8788 := by
    refine findBestToken_eq (by decide) (by rw [hprofit]; decide) fun q hq => ?_
    rw [hprofit, if_neg hq]
    decide
  have hslot : ∃ s', (⟨[quoteSymbol], buildInitialTokenTable [quoteSymbol],
      insertRealSymbols [quoteSymbol]⟩ : State).slot 255 = some s' ∧ s'.best 255 = [84, 34] := by
    simp only [State.slot, hbest, hprofit, if_true]
    rw [if_pos (by decide), if_neg (by decide)]
    refine ⟨_, rfl, ?_⟩
    change Function.update (insertRealSymbols [quoteSymbol]) 255 [84, 34] 255 = _
    exact Function.update_self ..
  obtain ⟨s', hs', hpair⟩ := hslot
  have hrun : optimizeTokenTable [quoteSymbol] = optimizeResult 255 s' := by
    rw [optimizeTokenTable, optimizeResult, show UInt8.ofNat 255 = 255 from rfl, hs']
  rw [hrun, optimizeResult_best (by rw [hpair]; exact List.cons_ne_nil _ _), hpair]

/-- With a quote in a token of two characters the source has a string that ends too early. -/
theorem quote_breaks : Valid false [quoteSymbol] ∧ InRange [quoteSymbol] ∧
    ¬ ∀ asm, RoundTrips false asm [quoteSymbol] := by
  have hv := valid_one quoteSymbol (by decide) (by decide) (by decide)
  have hrange : InRange [quoteSymbol] := List.forall_mem_singleton.mpr (by decide)
  refine ⟨hv, hrange, fun h => ?_⟩
  have hencodable := (h strict).encodable hv hrange
  have hquote := hencodable.quote ⟨quoteSymbol, List.mem_singleton_self _, by decide⟩ 255
    (by rw [best_quoteSymbol]; decide)
  exact absurd hquote (by decide)

end Ilobilix.Elf.Kallsyms
