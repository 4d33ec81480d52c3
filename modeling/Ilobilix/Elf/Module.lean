import Ilobilix.Elf.Kallsyms.Lookup
import Ilobilix.Elf.Load
import Mathlib.Order.Bounds.Basic

/-!
# Loading and relocating a module

A module is copied to zeroed pages of the kernel, header by header, and the words that the entries of
`DT_RELA` and `DT_JMPREL` name are then written one after the other. The entries, the symbols and their
names are read from the memory that is being written.

The addend of `R_X86_64_64` is commented out, and an entry with an undefined symbol without a name leaves
its word as it is: `relocated_iff`.

A file that could not be read is not modelled, nor are reads behind the end of the buffer, and what follows
the relocation only reads the memory.
-/

namespace Ilobilix.Elf.Mod

open Kallsyms

/-! ## Memory -/

/-- The memory of the kernel; addresses wrap around. -/
def Mem := UInt64 → UInt8

namespace Mem

variable (mem : Mem)

/-- The number in `n` bytes. -/
def read (n : ℕ) (a : UInt64) : ℕ := readLE (fun i => mem (a + .ofNat i)) n 0

def word (a : UInt64) : UInt64 := .ofNat (mem.read 8 a)

def string (fuel : ℕ) (a : UInt64) : Option (List UInt8) :=
  readString (fun i => mem (a + .ofNat i)) fuel 0

/-- `n` bytes are written from `a` on. -/
def write (a n : UInt64) (src : UInt64 → UInt8) : Mem := fun b =>
  if b - a < n then src (b - a) else mem b

def storeWord (a v : UInt64) : Mem := mem.write a 8 fun i => (encodeLE 8 v.toNat).getD i.toNat 0

end Mem

/-! ## The segments -/

/-- Why loading did not return. -/
inductive Stop
  | panic
  | divide
  | lookup (stop : Lookup.Stop)
  | fuel
deriving DecidableEq, Repr

def ptNull : ℕ := 0
def ptDynamic : ℕ := 2
/-- `DT_LOOS + 1`. -/
def ptModules : ℕ := 0x60000001

section Load

variable (file : File) (loadedAt : UInt64)

/-- The checks of the header. -/
def valid (ehdr : Ehdr) : Bool :=
  ehdr.ident.take 4 == [0x7F, 0x45, 0x4C, 0x46] && ehdr.ident.getD 4 0 == 2 &&
    ehdr.ident.getD 5 0 == 1 && ehdr.ident.getD 7 0 == 0 && ehdr.type == etDyn

/-- The offset of a program header in the buffer. -/
def phdrOffset (ehdr : Ehdr) (i : ℕ) : ℕ := ehdr.phoff.toNat + ehdr.phentsize * i

def phdrAt (ehdr : Ehdr) (i : ℕ) : Phdr := .parse (file.data.drop (phdrOffset ehdr i))

def alignAt (ehdr : Ehdr) (i : ℕ) : UInt64 := .ofNat (field file.data (phdrOffset ehdr i + 48) 8)

/-- The loop that computes `max_size`. -/
def maxSize (ehdr : Ehdr) : List ℕ → UInt64 → Except Stop UInt64
  | [], size => .ok size
  | i :: is, size =>
      let phdr := phdrAt file ehdr i
      let align := alignAt file ehdr i
      if phdr.type ≠ ptLoad then maxSize ehdr is size
      else if align = 0 then .error .divide
      else
        let seghi := phdr.vaddr + phdr.memsz
        let seghi := ((seghi - 1) / align + 1) * align
        maxSize ehdr is (if size < seghi then seghi else size)

/-- The bytes of the pages that are mapped for `max_size` bytes. -/
def pageBytes (size : UInt64) : ℕ := (size.toNat + 4095) / 4096 * 4096

/-- The pages have been cleared. -/
def Mem.mapPages (mem : Mem) (size : UInt64) : Mem := fun b =>
  if (b - loadedAt).toNat < pageBytes size then 0 else mem b

/-- The local variables that the dynamic section and the header of `.modules` set. -/
structure Locals where
  modulesStart : UInt64 := 0
  modulesSize : UInt64 := 0
  pltrelsz : UInt64 := 0
  strtab : UInt64 := 0
  symtab : UInt64 := 0
  rela : UInt64 := 0
  relasz : UInt64 := 0
  relaent : UInt64 := 0
  syment : UInt64 := 0
  jmprel : UInt64 := 0
  initArray : UInt64 := 0
  finiArray : UInt64 := 0
  initArraysz : UInt64 := 0
  finiArraysz : UInt64 := 0
deriving DecidableEq, Repr

def dtNull : UInt64 := 0
def dtPltrelsz : UInt64 := 2
def dtStrtab : UInt64 := 5
def dtSymtab : UInt64 := 6
def dtRela : UInt64 := 7
def dtRelasz : UInt64 := 8
def dtRelaent : UInt64 := 9
def dtSyment : UInt64 := 11
def dtJmprel : UInt64 := 23
def dtInitArray : UInt64 := 25
def dtFiniArray : UInt64 := 26
def dtInitArraysz : UInt64 := 27
def dtFiniArraysz : UInt64 := 28

/-- `switch (dyn.d_tag)`. -/
def Locals.set (l : Locals) (tag val : UInt64) : Locals :=
  if tag = dtPltrelsz then { l with pltrelsz := val }
  else if tag = dtStrtab then { l with strtab := loadedAt + val }
  else if tag = dtSymtab then { l with symtab := loadedAt + val }
  else if tag = dtRela then { l with rela := loadedAt + val }
  else if tag = dtRelasz then { l with relasz := val }
  else if tag = dtRelaent then { l with relaent := val }
  else if tag = dtSyment then { l with syment := val }
  else if tag = dtJmprel then { l with jmprel := loadedAt + val }
  else if tag = dtInitArray then { l with initArray := loadedAt + val }
  else if tag = dtFiniArray then { l with finiArray := loadedAt + val }
  else if tag = dtInitArraysz then { l with initArraysz := val }
  else if tag = dtFiniArraysz then { l with finiArraysz := val }
  else l

/-- The entries of a dynamic section. -/
def dyntable (phdr : Phdr) : List (UInt64 × UInt64) :=
  (List.range (phdr.filesz.toNat / 16)).map fun i =>
    (.ofNat (field file.data (phdr.offset.toNat + 16 * i) 8),
      .ofNat (field file.data (phdr.offset.toNat + 16 * i + 8) 8))

/-- The loop over the entries. -/
def readDynamic : List (UInt64 × UInt64) → Locals → Locals
  | [], l => l
  | (tag, val) :: dyns, l => if tag = dtNull then l else readDynamic dyns (l.set loadedAt tag val)

/-- `memset` and `memcpy` of a segment. -/
def copySegment (phdr : Phdr) (mem : Mem) : Mem :=
  (mem.write (loadedAt + phdr.vaddr + phdr.filesz) (phdr.memsz - phdr.filesz) fun _ => 0).write
    (loadedAt + phdr.vaddr) phdr.filesz fun k => file.data.getD (phdr.offset.toNat + k.toNat) 0

/-- `switch (type)`. -/
def loadHeader (phdr : Phdr) (mem : Mem) (l : Locals) : Except Stop (Mem × Locals) :=
  if phdr.type = ptModules then
    .ok (copySegment file loadedAt phdr mem,
      { l with modulesStart := loadedAt + phdr.vaddr, modulesSize := phdr.filesz })
  else if phdr.type = ptLoad then .ok (copySegment file loadedAt phdr mem, l)
  else if phdr.type = ptDynamic then
    let l := readDynamic loadedAt (dyntable file phdr) l
    if l.strtab = 0 ∨ l.symtab = 0 ∨ l.rela = 0 ∨ l.relasz = 0 ∨ l.relaent = 0 then .error .panic
    else .ok (mem, l)
  else .ok (mem, l)

/-- The loop over the headers. -/
def loadHeaders : List Phdr → Mem → Locals → Except Stop (Mem × Locals)
  | [], mem, l => .ok (mem, l)
  | phdr :: phdrs, mem, l =>
      match loadHeader file loadedAt phdr mem l with
      | .error stop => .error stop
      | .ok (mem, l) => loadHeaders phdrs mem l

end Load

/-! ## The relocation -/

/-- `Elf64_Rela`. -/
structure Rela where
  offset : UInt64
  info : UInt64
  addend : UInt64
deriving DecidableEq, Repr

/-- `ELF64_R_SYM`. -/
def Rela.sym (rel : Rela) : UInt64 := rel.info >>> 32

/-- `ELF64_R_TYPE`. -/
def Rela.type (rel : Rela) : UInt64 := rel.info &&& 0xFFFFFFFF

def rX86_64_64 : UInt64 := 1
def rX86_64GlobDat : UInt64 := 6
def rX86_64JumpSlot : UInt64 := 7
def rX86_64Relative : UInt64 := 8

/-- The fields of `Elf64_Sym` that are looked at. -/
structure Sym where
  name : UInt64
  shndx : ℕ
  value : UInt64
deriving DecidableEq, Repr

def Mem.rela (mem : Mem) (a : UInt64) : Rela := ⟨mem.word a, mem.word (a + 8), mem.word (a + 16)⟩

def Mem.sym (mem : Mem) (a : UInt64) : Sym :=
  ⟨.ofNat (mem.read 4 a), mem.read 2 (a + 6), mem.word (a + 8)⟩

/-- The address of the symbol of an entry. -/
def Locals.symAddr (l : Locals) (rel : Rela) : UInt64 := l.symtab + rel.sym * l.syment

/-- The addresses of the entries of a table. -/
def slots (table size ent : UInt64) : List UInt64 :=
  (List.range (size / ent).toNat).map fun i => table + .ofNat i * ent

section Relocate

variable (k : Lookup.Image) (ksymNameLen fuel : ℕ) (file : File) (loadedAt : UInt64) (l : Locals)

/-- `reloc`; `none` is `false`. -/
def reloc (mem : Mem) (rel : Rela) : Except Stop (Option Mem) :=
  let loc := loadedAt + rel.offset
  if rel.type = rX86_64_64 ∨ rel.type = rX86_64GlobDat ∨ rel.type = rX86_64JumpSlot then
    let sym := mem.sym (l.symAddr rel)
    if sym.shndx = 0 then
      match mem.string fuel (l.strtab + sym.name) with
      | none => .error .fuel
      | some name =>
          if name = [] then .ok (some mem)
          else
            match Lookup.lookupName k ksymNameLen fuel name with
            | .error stop => .error (.lookup stop)
            | .ok symaddr =>
                if symaddr = 2 ^ 64 - 1 then .ok none
                else .ok (some (mem.storeWord loc (.ofNat symaddr)))
    else .ok (some (mem.storeWord loc (loadedAt + sym.value)))
  else if rel.type = rX86_64Relative then .ok (some (mem.storeWord loc (loadedAt + rel.addend)))
  else .ok none

/-- A loop over the entries of a table. -/
def relocAll : List UInt64 → Mem → Except Stop (Option Mem)
  | [], mem => .ok (some mem)
  | a :: as, mem =>
      match reloc k ksymNameLen fuel loadedAt l mem (mem.rela a) with
      | .error stop => .error stop
      | .ok none => .ok none
      | .ok (some mem) => relocAll as mem

/-- `load` up to the relocation of both tables, with the memory then; `none` is `false`. -/
def load (mem : Mem) : Except Stop (Option Mem) :=
  let ehdr := Ehdr.parse file.data
  if !valid ehdr then .ok none
  else do
    let size ← maxSize file ehdr (List.range ehdr.phnum) 0
    let phdrs := (List.range ehdr.phnum).map (phdrAt file ehdr)
    let (mem, l) ← loadHeaders file loadedAt phdrs (mem.mapPages loadedAt size) {}
    if l.relaent = 0 then .error .divide
    else
      match ← relocAll k ksymNameLen fuel loadedAt l (slots l.rela l.relasz l.relaent) mem with
      | none => .ok none
      | some mem => relocAll k ksymNameLen fuel loadedAt l (slots l.jmprel l.pltrelsz l.relaent) mem

end Relocate

/-! ## What the psABI prescribes -/

section Spec

variable (file : File) (loadedAt : UInt64)

/-- The program headers. -/
def phdrs : List Phdr :=
  let ehdr := Ehdr.parse file.data
  (List.range ehdr.phnum).map (phdrAt file ehdr)

/-- The headers whose bytes are in the image. -/
def loaded (phdrs : List Phdr) : List Phdr :=
  phdrs.filter fun phdr => phdr.type = ptModules ∨ phdr.type = ptLoad

/-- The address is in the segment. -/
def InSegment (phdr : Phdr) (b : UInt64) : Prop := b - (loadedAt + phdr.vaddr) < phdr.memsz

instance (phdr : Phdr) (b : UInt64) : Decidable (InSegment loadedAt phdr b) :=
  inferInstanceAs (Decidable (_ < _))

/-- The byte of a segment at an address. -/
def segmentByte (phdr : Phdr) (b : UInt64) : UInt8 :=
  phdr.byteAt file (b - (loadedAt + phdr.vaddr)).toNat

/-- `max_size`. -/
def imageSize : UInt64 :=
  let ehdr := Ehdr.parse file.data
  match maxSize file ehdr (List.range ehdr.phnum) 0 with
  | .error _ => 0
  | .ok size => size

/-- The contents of the file, and zeroes between them. -/
def image (mem : Mem) : Mem := fun b =>
  match (loaded (phdrs file)).find? fun phdr => InSegment loadedAt phdr b with
  | some phdr => segmentByte file loadedAt phdr b
  | none => mem.mapPages loadedAt (imageSize file) b

/-- The entries of the dynamic section. -/
def dynamic (phdrs : List Phdr) : List (UInt64 × UInt64) :=
  (phdrs.filter fun phdr => phdr.type = ptDynamic).flatMap fun phdr =>
    (dyntable file phdr).takeWhile fun dyn => dyn.1 ≠ dtNull

/-- The last value of a tag. -/
def lastVal (dyns : List (UInt64 × UInt64)) (tag : UInt64) : Option UInt64 :=
  (dyns.reverse.find? fun dyn => dyn.1 = tag).map Prod.snd

/-- The addresses and sizes that the entries of a dynamic section give. -/
def dynTables (dyns : List (UInt64 × UInt64)) : Locals :=
  let size := fun tag => (lastVal dyns tag).getD 0
  let addr := fun tag => (lastVal dyns tag).elim 0 (loadedAt + ·)
  { pltrelsz := size dtPltrelsz
    strtab := addr dtStrtab
    symtab := addr dtSymtab
    rela := addr dtRela
    relasz := size dtRelasz
    relaent := size dtRelaent
    syment := size dtSyment
    jmprel := addr dtJmprel
    initArray := addr dtInitArray
    finiArray := addr dtFiniArray
    initArraysz := size dtInitArraysz
    finiArraysz := size dtFiniArraysz }

def tables : Locals := dynTables loadedAt (dynamic file (phdrs file))

/-- The addresses of the entries of `DT_RELA` and `DT_JMPREL`. -/
def entrySlots : List UInt64 :=
  let l := tables file loadedAt
  slots l.rela l.relasz l.relaent ++ slots l.jmprel l.pltrelsz l.relaent

variable (mem : Mem)

def entries : List Rela := (entrySlots file loadedAt).map (image file loadedAt mem).rela

/-- The symbol of an entry. -/
def symOf (rel : Rela) : Sym :=
  (image file loadedAt mem).sym ((tables file loadedAt).symAddr rel)

/-- The address of the name of its symbol. -/
def nameOf (rel : Rela) : UInt64 := (tables file loadedAt).strtab + (symOf file loadedAt mem rel).name

/-- The address is in the word that an entry relocates. -/
def InWord (rel : Rela) (b : UInt64) : Prop := b - (loadedAt + rel.offset) < 8

/-- The entry refers to an undefined symbol. -/
def Undefined (rel : Rela) : Prop :=
  rel.type ≠ rX86_64Relative ∧ (symOf file loadedAt mem rel).shndx = 0

/-- The bytes of a segment are not more in the file than in memory, segments agree on common bytes, two
entries relocate different words, and none of these words is in an entry, a symbol or a name. -/
structure WellFormed : Prop where
  filesz : ∀ phdr ∈ loaded (phdrs file), phdr.filesz ≤ phdr.memsz
  agree : ∀ phdr ∈ loaded (phdrs file), ∀ phdr' ∈ loaded (phdrs file), ∀ b,
    InSegment loadedAt phdr b → InSegment loadedAt phdr' b →
      segmentByte file loadedAt phdr b = segmentByte file loadedAt phdr' b
  apart : ∀ rel ∈ entries file loadedAt mem, ∀ rel' ∈ entries file loadedAt mem, rel = rel' ∨
    ∀ b, ¬ (InWord loadedAt rel b ∧ InWord loadedAt rel' b)
  slot : ∀ rel ∈ entries file loadedAt mem, ∀ a ∈ entrySlots file loadedAt, ∀ b,
    InWord loadedAt rel b → ¬ b - a < 24
  symbol : ∀ rel ∈ entries file loadedAt mem, ∀ rel' ∈ entries file loadedAt mem,
    rel'.type ≠ rX86_64Relative → ∀ b, InWord loadedAt rel b →
      ¬ b - (tables file loadedAt).symAddr rel' < 24
  name : ∀ rel' ∈ entries file loadedAt mem, Undefined file loadedAt mem rel' →
    ∃ fuel name, (image file loadedAt mem).string fuel (nameOf file loadedAt mem rel') = some name ∧
      ∀ rel ∈ entries file loadedAt mem, ∀ i ≤ name.length,
        ¬ InWord loadedAt rel (nameOf file loadedAt mem rel' + .ofNat i)

variable (table : List SymEntry)

/-- `S`: the address of the kernel's symbol for an undefined symbol, nothing if that has no name, and the
address in the image for the others. -/
def IsSymbol (rel : Rela) (s : UInt64) : Prop :=
  ((symOf file loadedAt mem rel).shndx ≠ 0 → s = loadedAt + (symOf file loadedAt mem rel).value) ∧
  ((symOf file loadedAt mem rel).shndx = 0 → ∃ fuel name,
    (image file loadedAt mem).string fuel (nameOf file loadedAt mem rel) = some name ∧
      (name = [] → s = 0) ∧
      (name ≠ [] → IsLeast {a | ∃ sym ∈ table, sym.name = name ∧ sym.addr = a} s.toNat))

/-- `S + A`, `S` or `B + A`. -/
def prescribed (rel : Rela) (s : UInt64) : UInt64 :=
  if rel.type = rX86_64_64 then s + rel.addend
  else if rel.type = rX86_64Relative then loadedAt + rel.addend
  else s

/-- Every relocated word holds what the psABI prescribes, and every other byte is that of the file or
zero. -/
def Relocated (mem' : Mem) : Prop :=
  (∀ rel ∈ entries file loadedAt mem, ∃ s,
    (rel.type ≠ rX86_64Relative → IsSymbol file loadedAt mem table rel s) ∧
      mem'.word (loadedAt + rel.offset) = prescribed loadedAt rel s) ∧
  ∀ b, (∀ rel ∈ entries file loadedAt mem, ¬ InWord loadedAt rel b) → mem' b = image file loadedAt mem b

/-- An undefined symbol without a name. -/
def Unnamed (rel : Rela) : Prop :=
  Undefined file loadedAt mem rel ∧ image file loadedAt mem (nameOf file loadedAt mem rel) = 0

/-- There is no addend to be added; where the symbol has no name, the word of the file is the right one
already. -/
def Plain (rel : Rela) : Prop :=
  (Unnamed file loadedAt mem rel →
    (image file loadedAt mem).word (loadedAt + rel.offset) = prescribed loadedAt rel 0) ∧
  (¬ Unnamed file loadedAt mem rel → rel.type = rX86_64_64 → rel.addend = 0)

end Spec


/-! ## Words in memory -/

namespace Mem

variable {mem mem' : Mem} {a b : UInt64}

theorem toNat_ofNat_of_lt {i : ℕ} (hi : i < 2 ^ 64) : (UInt64.ofNat i).toNat = i := by
  rw [UInt64.toNat_ofNat', Nat.mod_eq_of_lt hi]

/-- An address within a distance of another one. -/
theorem add_ofNat_sub_lt {i n : ℕ} (hi : i < n) (hn : n < 2 ^ 64) (a : UInt64) :
    a + .ofNat i - a < .ofNat n := by
  rw [UInt64.add_comm, UInt64.add_sub_cancel, UInt64.lt_iff_toNat_lt,
    toNat_ofNat_of_lt (hi.trans hn), toNat_ofNat_of_lt hn]
  exact hi

theorem read_congr {n : ℕ} (hn : n < 2 ^ 64) (h : ∀ b, b - a < .ofNat n → mem' b = mem b) :
    mem'.read n a = mem.read n a :=
  readLE_congr fun i hi => h _ (add_ofNat_sub_lt (by omega) hn a)

theorem storeWord_of_lt {v : UInt64} (h : b - a < 8) :
    mem.storeWord a v b = (encodeLE 8 v.toNat).getD (b - a).toNat 0 := if_pos h

theorem storeWord_of_not_lt {v : UInt64} (h : ¬ b - a < 8) : mem.storeWord a v b = mem b := if_neg h

/-- A word is read back from its bytes. -/
theorem word_eq {v : UInt64}
    (h : ∀ b, b - a < 8 → mem b = (encodeLE 8 v.toNat).getD (b - a).toNat 0) : mem.word a = v := by
  have hbytes : BytesAt (fun i => mem (a + .ofNat i)) 0 (encodeLE 8 v.toNat) := by
    intro i hi
    have hi' : i < 8 := by rwa [length_encodeLE] at hi
    have hlt : a + .ofNat i - a < 8 := add_ofNat_sub_lt hi' (by decide) a
    dsimp only
    rw [Nat.zero_add, h _ hlt, UInt64.add_comm, UInt64.add_sub_cancel,
      toNat_ofNat_of_lt (by omega), List.getD_eq_getElem _ _ hi]
  rw [word, read, hbytes.readLE_eq v.toNat_lt, UInt64.ofNat_toNat]

theorem toNat_sub_eq (a b o : UInt64) :
    (b - a).toNat = ((b - (a + o)).toNat + o.toNat) % 2 ^ 64 := by
  rw [← UInt64.toNat_add]
  refine congrArg UInt64.toNat (UInt64.sub_eq_iff_eq_add.mpr ?_)
  rw [UInt64.add_assoc, UInt64.add_comm o a, UInt64.sub_add_cancel]

/-- A part of a structure. -/
theorem sub_lt_of_part {o n : UInt64} (h : b - (a + o) < n) (hsum : o.toNat + n.toNat ≤ 24) :
    b - a < 24 := by
  have heq := toNat_sub_eq a b o
  rw [UInt64.lt_iff_toNat_lt] at h ⊢
  rw [heq]
  change _ < 24
  omega

/-- A word behind a structure. -/
theorem not_sub_lt {o : UInt64} (h : b - (a + o) < 8) (ho : 24 ≤ o.toNat)
    (ho' : o.toNat + 8 ≤ 2 ^ 64) : ¬ b - a < 24 := by
  have heq := toNat_sub_eq a b o
  rw [UInt64.lt_iff_toNat_lt] at h ⊢
  change _ < 8 at h
  rw [heq, Nat.mod_eq_of_lt (by omega)]
  change ¬ _ < 24
  omega

theorem read_congr_part (h : ∀ b, b - a < 24 → mem' b = mem b) (o : UInt64) (n : ℕ)
    (hsum : o.toNat + n ≤ 24) : mem'.read n (a + o) = mem.read n (a + o) := by
  have hn : n < 2 ^ 64 := by omega
  refine read_congr hn fun b hb => h b (sub_lt_of_part hb ?_)
  rwa [toNat_ofNat_of_lt hn]

/-- An entry is read from its 24 bytes. -/
theorem rela_congr (h : ∀ b, b - a < 24 → mem' b = mem b) : mem'.rela a = mem.rela a := by
  have hoffset := read_congr_part h 0 8 (by decide)
  have hinfo := read_congr_part h 8 8 (by decide)
  have haddend := read_congr_part h 16 8 (by decide)
  rw [UInt64.add_zero] at hoffset
  simp only [rela, word, hoffset, hinfo, haddend]

theorem sym_congr (h : ∀ b, b - a < 24 → mem' b = mem b) : mem'.sym a = mem.sym a := by
  have hname := read_congr_part h 0 4 (by decide)
  have hshndx := read_congr_part h 6 2 (by decide)
  have hvalue := read_congr_part h 8 8 (by decide)
  rw [UInt64.add_zero] at hname
  simp only [sym, word, hname, hshndx, hvalue]

theorem string_congr {f : ℕ} {name : List UInt8} (hname : mem.string f a = some name)
    (h : ∀ i ≤ name.length, mem' (a + .ofNat i) = mem (a + .ofNat i)) (fuel : ℕ) :
    mem'.string fuel a = mem.string fuel a := by
  refine readString_congr hname (fun i hi => ?_) fuel
  rw [Nat.zero_add]
  exact h i hi

end Mem

/-! ## The image -/

section Image

variable {file : File} {loadedAt : UInt64}

theorem copySegment_apply {phdr : Phdr} (h : phdr.filesz ≤ phdr.memsz) (mem : Mem) (b : UInt64) :
    copySegment file loadedAt phdr mem b =
      if InSegment loadedAt phdr b then segmentByte file loadedAt phdr b else mem b := by
  have hrest : b - (loadedAt + phdr.vaddr + phdr.filesz) =
      b - (loadedAt + phdr.vaddr) - phdr.filesz := by
    rw [UInt64.sub_eq_iff_eq_add, UInt64.add_comm _ phdr.filesz, ← UInt64.add_assoc,
      UInt64.sub_add_cancel, UInt64.sub_add_cancel]
  change _ = if b - (loadedAt + phdr.vaddr) < phdr.memsz then _ else _
  rw [copySegment, Mem.write, Mem.write, segmentByte, hrest]
  generalize b - (loadedAt + phdr.vaddr) = k
  rw [UInt64.le_iff_toNat_le] at h
  by_cases hfile : k < phdr.filesz
  · have hmem : k < phdr.memsz := by
      rw [UInt64.lt_iff_toNat_lt] at hfile ⊢
      omega
    rw [if_pos hfile, if_pos hmem, Phdr.byteAt, if_pos (UInt64.lt_iff_toNat_lt.mp hfile)]
  · have hle : phdr.filesz ≤ k := UInt64.not_lt.mp hfile
    have hzero : k - phdr.filesz < phdr.memsz - phdr.filesz ↔ k < phdr.memsz := by
      have hle' := UInt64.le_iff_toNat_le.mp hle
      rw [UInt64.lt_iff_toNat_lt, UInt64.lt_iff_toNat_lt, UInt64.toNat_sub_of_le _ _ hle,
        UInt64.toNat_sub_of_le _ _ (UInt64.le_iff_toNat_le.mpr h)]
      omega
    rw [if_neg hfile, Phdr.byteAt, if_neg fun hlt => hfile (UInt64.lt_iff_toNat_lt.mpr hlt)]
    exact if_congr hzero rfl rfl

/-- The variables that the dynamic section sets. -/
def Locals.noModules (l : Locals) : Locals := { l with modulesStart := 0, modulesSize := 0 }

theorem noModules_set (l : Locals) (tag val : UInt64) :
    (l.set loadedAt tag val).noModules = l.noModules.set loadedAt tag val := by
  simp only [Locals.set, apply_ite Locals.noModules]
  rfl

theorem noModules_readDynamic (dyns : List (UInt64 × UInt64)) (l : Locals) :
    (readDynamic loadedAt dyns l).noModules =
      (dyns.takeWhile fun dyn => dyn.1 ≠ dtNull).foldl (fun l dyn => l.set loadedAt dyn.1 dyn.2)
        l.noModules := by
  induction dyns generalizing l with
  | nil => rfl
  | cons dyn dyns ih =>
      obtain ⟨tag, val⟩ := dyn
      rw [readDynamic]
      by_cases hnull : tag = dtNull
      · rw [if_pos hnull, List.takeWhile_cons_of_neg (by simpa using hnull)]
        rfl
      · rw [if_neg hnull, List.takeWhile_cons_of_pos (by simpa using hnull), List.foldl_cons, ih,
          noModules_set]

theorem lastVal_append (dyns : List (UInt64 × UInt64)) (tag val tag' : UInt64) :
    lastVal (dyns ++ [(tag, val)]) tag' = if tag = tag' then some val else lastVal dyns tag' := by
  rw [lastVal, List.reverse_append, List.reverse_singleton, List.singleton_append, List.find?_cons]
  by_cases htag : tag = tag'
  · rw [if_pos htag, decide_eq_true htag]
    rfl
  · rw [if_neg htag, decide_eq_false htag]
    rfl

/-- The loop ends with the last value of each tag. -/
theorem foldl_set (dyns : List (UInt64 × UInt64)) :
    dyns.foldl (fun l dyn => l.set loadedAt dyn.1 dyn.2) {} = dynTables loadedAt dyns := by
  induction dyns using List.reverseRecOn with
  | nil => rfl
  | append_singleton dyns dyn ih =>
      obtain ⟨tag, val⟩ := dyn
      rw [List.foldl_concat, ih]
      by_cases htag : tag ∈ [dtPltrelsz, dtStrtab, dtSymtab, dtRela, dtRelasz, dtRelaent, dtSyment,
        dtJmprel, dtInitArray, dtFiniArray, dtInitArraysz, dtFiniArraysz]
      · simp only [List.mem_cons, List.not_mem_nil, or_false] at htag
        simp only [dynTables, lastVal_append]
        rcases htag with rfl | rfl | rfl | rfl | rfl | rfl | rfl | rfl | rfl | rfl | rfl | rfl <;> rfl
      · simp only [List.mem_cons, List.not_mem_nil, or_false, not_or] at htag
        simp only [dynTables, lastVal_append, Locals.set, htag, if_false]

/-- What the loop over the headers leaves in memory and in the variables. -/
structure Copied (file : File) (loadedAt : UInt64) (phdrs : List Phdr) (mem : Mem) (l : Locals)
    (mem' : Mem) (l' : Locals) : Prop where
  hit : ∀ phdr ∈ loaded phdrs, ∀ b, InSegment loadedAt phdr b →
    mem' b = segmentByte file loadedAt phdr b
  miss : ∀ b, (∀ phdr ∈ loaded phdrs, ¬ InSegment loadedAt phdr b) → mem' b = mem b
  locals : l'.noModules =
    (dynamic file phdrs).foldl (fun l dyn => l.set loadedAt dyn.1 dyn.2) l.noModules

theorem loadHeader_loaded {phdr : Phdr} (hload : phdr.type = ptModules ∨ phdr.type = ptLoad)
    {mem mem' : Mem} {l l' : Locals} (h : loadHeader file loadedAt phdr mem l = .ok (mem', l')) :
    mem' = copySegment file loadedAt phdr mem ∧ l'.noModules = l.noModules := by
  rw [loadHeader] at h
  by_cases hmod : phdr.type = ptModules
  · rw [if_pos hmod] at h
    obtain ⟨rfl, rfl⟩ := Prod.mk.inj (Except.ok.inj h)
    exact ⟨rfl, rfl⟩
  · rw [if_neg hmod, if_pos (hload.resolve_left hmod)] at h
    obtain ⟨rfl, rfl⟩ := Prod.mk.inj (Except.ok.inj h)
    exact ⟨rfl, rfl⟩

theorem loadHeader_not_loaded {phdr : Phdr} (hload : ¬ (phdr.type = ptModules ∨ phdr.type = ptLoad))
    {mem mem' : Mem} {l l' : Locals} (h : loadHeader file loadedAt phdr mem l = .ok (mem', l')) :
    mem' = mem ∧ l'.noModules = (dynamic file [phdr]).foldl
      (fun l dyn => l.set loadedAt dyn.1 dyn.2) l.noModules := by
  rw [loadHeader, if_neg fun h => hload (Or.inl h), if_neg fun h => hload (Or.inr h)] at h
  by_cases hdyn : phdr.type = ptDynamic
  · have hone : dynamic file [phdr] = (dyntable file phdr).takeWhile fun dyn => dyn.1 ≠ dtNull := by
      rw [dynamic, List.filter_cons_of_pos (by simpa using hdyn)]
      exact List.append_nil _
    rw [if_pos hdyn] at h
    dsimp only at h
    split at h
    · cases h
    · obtain ⟨rfl, rfl⟩ := Prod.mk.inj (Except.ok.inj h)
      exact ⟨rfl, by rw [hone, noModules_readDynamic]⟩
  · have hnone : dynamic file [phdr] = [] := by
      rw [dynamic, List.filter_cons_of_neg (by simpa using hdyn)]
      rfl
    rw [if_neg hdyn] at h
    obtain ⟨rfl, rfl⟩ := Prod.mk.inj (Except.ok.inj h)
    exact ⟨rfl, by rw [hnone]; rfl⟩

theorem dynamic_cons (phdr : Phdr) (phs : List Phdr) :
    dynamic file (phdr :: phs) = dynamic file [phdr] ++ dynamic file phs := by
  rw [dynamic, dynamic, dynamic, ← List.flatMap_append, ← List.filter_append]
  rfl

theorem dynamic_loaded {phdr : Phdr} (hload : phdr.type = ptModules ∨ phdr.type = ptLoad) :
    dynamic file [phdr] = [] := by
  have hdyn : phdr.type ≠ ptDynamic := by
    rcases hload with h | h <;> rw [h] <;> decide
  rw [dynamic, List.filter_cons_of_neg (by simpa using hdyn)]
  rfl

theorem loadHeaders_copied {phs : List Phdr}
    (hfilesz : ∀ phdr ∈ loaded phs, phdr.filesz ≤ phdr.memsz)
    (hagree : ∀ phdr ∈ loaded phs, ∀ phdr' ∈ loaded phs, ∀ b, InSegment loadedAt phdr b →
      InSegment loadedAt phdr' b →
        segmentByte file loadedAt phdr b = segmentByte file loadedAt phdr' b)
    {mem mem' : Mem} {l l' : Locals}
    (hrun : loadHeaders file loadedAt phs mem l = .ok (mem', l')) :
    Copied file loadedAt phs mem l mem' l' := by
  induction phs generalizing mem l with
  | nil =>
      obtain ⟨rfl, rfl⟩ := Prod.mk.inj (Except.ok.inj hrun)
      exact ⟨nofun, fun _ _ => rfl, rfl⟩
  | cons phdr phs ih =>
      rw [loadHeaders] at hrun
      rcases hhead : loadHeader file loadedAt phdr mem l with stop | ⟨mem₁, l₁⟩
      · rw [hhead] at hrun
        cases hrun
      rw [hhead] at hrun
      by_cases hload : phdr.type = ptModules ∨ phdr.type = ptLoad
      · -- the bytes of the segment are not written by the rest, or once more
        have hcons : loaded (phdr :: phs) = phdr :: loaded phs :=
          List.filter_cons_of_pos (by simpa using hload)
        obtain ⟨rfl, hl₁⟩ := loadHeader_loaded hload hhead
        rw [hcons] at hfilesz hagree
        have hrest := ih (fun p hp => hfilesz p (List.mem_cons_of_mem _ hp))
          (fun p hp q hq => hagree p (List.mem_cons_of_mem _ hp) q (List.mem_cons_of_mem _ hq)) hrun
        have hcopy : ∀ b, copySegment file loadedAt phdr mem b =
            if InSegment loadedAt phdr b then segmentByte file loadedAt phdr b else mem b :=
          copySegment_apply (hfilesz phdr List.mem_cons_self) mem
        refine ⟨fun p hp b hb => ?_, fun b hb => ?_, ?_⟩
        · by_cases hlater : ∃ q ∈ loaded phs, InSegment loadedAt q b
          · obtain ⟨q, hq, hbq⟩ := hlater
            rw [hrest.hit q hq b hbq]
            exact hagree q (List.mem_cons_of_mem _ hq) p (hcons ▸ hp) b hbq hb
          · have hhit : InSegment loadedAt phdr b := by
              rcases List.mem_cons.mp (hcons ▸ hp) with rfl | hp'
              · exact hb
              · exact absurd ⟨p, hp', hb⟩ hlater
            rw [hrest.miss b fun q hq hbq => hlater ⟨q, hq, hbq⟩, hcopy, if_pos hhit]
            exact hagree phdr List.mem_cons_self p (hcons ▸ hp) b hhit hb
        · rw [hcons] at hb
          rw [hrest.miss b fun q hq => hb q (List.mem_cons_of_mem _ hq), hcopy,
            if_neg (hb phdr List.mem_cons_self)]
        · rw [hrest.locals, hl₁, dynamic_cons phdr phs, dynamic_loaded hload, List.nil_append]
      · have hcons : loaded (phdr :: phs) = loaded phs :=
          List.filter_cons_of_neg (by simpa using hload)
        obtain ⟨rfl, hl₁⟩ := loadHeader_not_loaded hload hhead
        rw [hcons] at hfilesz hagree
        have hrest := ih hfilesz hagree hrun
        refine ⟨by rw [hcons]; exact hrest.hit, by rw [hcons]; exact hrest.miss, ?_⟩
        rw [hrest.locals, hl₁, dynamic_cons phdr phs, List.foldl_append]

end Image

/-! ## The loops over the entries -/

section Run

variable {k : Lookup.Image} {ksymNameLen fuel : ℕ} {file : File} {loadedAt : UInt64} {l : Locals}

theorem relocAll_append {as bs : List UInt64} {mem mem₁ : Mem}
    (h : relocAll k ksymNameLen fuel loadedAt l as mem = .ok (some mem₁)) :
    relocAll k ksymNameLen fuel loadedAt l (as ++ bs) mem =
      relocAll k ksymNameLen fuel loadedAt l bs mem₁ := by
  induction as generalizing mem with
  | nil =>
      obtain rfl : mem = mem₁ := Option.some.inj (Except.ok.inj h)
      rfl
  | cons a as ih =>
      rw [relocAll] at h
      rw [List.cons_append, relocAll]
      rcases hhead : reloc k ksymNameLen fuel loadedAt l mem (mem.rela a) with stop | _ | mem₂
      · rw [hhead] at h
        cases h
      · rw [hhead] at h
        cases h
      · rw [hhead] at h
        exact ih h

/-- The variables of `.modules` play no part in the relocation. -/
theorem relocAll_noModules (as : List UInt64) (mem : Mem) :
    relocAll k ksymNameLen fuel loadedAt l.noModules as mem =
      relocAll k ksymNameLen fuel loadedAt l as mem := by
  induction as generalizing mem with
  | nil => rfl
  | cons a as ih =>
      have hhead : reloc k ksymNameLen fuel loadedAt l.noModules mem (mem.rela a) =
          reloc k ksymNameLen fuel loadedAt l mem (mem.rela a) := rfl
      rw [relocAll, relocAll, hhead]
      rcases reloc k ksymNameLen fuel loadedAt l mem (mem.rela a) with stop | _ | mem₂
      · rfl
      · rfl
      · exact ih mem₂

/-- A module that has been loaded: the loops have gone over the image. -/
theorem load_relocAll {mem mem' : Mem} (hwf : WellFormed file loadedAt mem)
    (h : load k ksymNameLen fuel file loadedAt mem = .ok (some mem')) :
    relocAll k ksymNameLen fuel loadedAt (tables file loadedAt) (entrySlots file loadedAt)
      (image file loadedAt mem) = .ok (some mem') := by
  rw [load] at h
  dsimp only at h
  split at h
  · cases h
  rcases hsize : maxSize file (Ehdr.parse file.data) (List.range (Ehdr.parse file.data).phnum) 0 with
    stop | size
  · rw [hsize] at h
    cases h
  rw [hsize] at h
  have himage : imageSize file = size := by
    rw [imageSize, hsize]
  rcases hheaders : loadHeaders file loadedAt (phdrs file) (mem.mapPages loadedAt size) {} with
    stop | ⟨mem₀, l⟩
  · rw [phdrs] at hheaders
    simp only [bind, Except.bind, hheaders] at h
    cases h
  have hcopied := loadHeaders_copied hwf.filesz hwf.agree hheaders
  have hlocals : l.noModules = tables file loadedAt := hcopied.locals.trans (foldl_set _)
  have hmem : mem₀ = image file loadedAt mem := by
    funext b
    rw [image]
    cases hfind : (loaded (phdrs file)).find? fun phdr => InSegment loadedAt phdr b with
    | some phdr =>
        exact hcopied.hit phdr (List.mem_of_find?_eq_some hfind) b
          (of_decide_eq_true (List.find?_some hfind :))
    | none =>
        rw [himage]
        refine hcopied.miss b fun phdr hphdr hin => ?_
        exact List.find?_eq_none.mp hfind phdr hphdr (decide_eq_true hin)
  rw [phdrs] at hheaders
  simp only [bind, Except.bind, hheaders] at h
  split at h
  · cases h
  rcases hfirst : relocAll k ksymNameLen fuel loadedAt l (slots l.rela l.relasz l.relaent) mem₀ with
    stop | _ | mem₁
  · rw [hfirst] at h
    cases h
  · rw [hfirst] at h
    cases h
  rw [hfirst] at h
  rw [← hlocals, ← hmem, relocAll_noModules, entrySlots, ← hlocals]
  exact (relocAll_append hfirst).trans h

/-- What an entry writes: nothing, or a word. -/
def outcome (k : Lookup.Image) (ksymNameLen fuel : ℕ) (loadedAt : UInt64) (l : Locals) (mem : Mem)
    (rel : Rela) : Except Stop (Option (Option UInt64)) :=
  if rel.type = rX86_64_64 ∨ rel.type = rX86_64GlobDat ∨ rel.type = rX86_64JumpSlot then
    if (mem.sym (l.symAddr rel)).shndx = 0 then
      match mem.string fuel (l.strtab + (mem.sym (l.symAddr rel)).name) with
      | none => .error .fuel
      | some name =>
          if name = [] then .ok (some none)
          else
            match Lookup.lookupName k ksymNameLen fuel name with
            | .error stop => .error (.lookup stop)
            | .ok symaddr =>
                if symaddr = 2 ^ 64 - 1 then .ok none else .ok (some (some (.ofNat symaddr)))
    else .ok (some (some (loadedAt + (mem.sym (l.symAddr rel)).value)))
  else if rel.type = rX86_64Relative then .ok (some (some (loadedAt + rel.addend)))
  else .ok none

/-- The memory after an entry. -/
def Mem.after (mem : Mem) (loc : UInt64) : Option UInt64 → Mem
  | none => mem
  | some v => mem.storeWord loc v

theorem reloc_eq (mem : Mem) (rel : Rela) :
    reloc k ksymNameLen fuel loadedAt l mem rel =
      match outcome k ksymNameLen fuel loadedAt l mem rel with
      | .error stop => .error stop
      | .ok none => .ok none
      | .ok (some w) => .ok (some (mem.after (loadedAt + rel.offset) w)) := by
  rw [reloc, outcome]
  by_cases hword : rel.type = rX86_64_64 ∨ rel.type = rX86_64GlobDat ∨ rel.type = rX86_64JumpSlot
  · simp only [if_pos hword]
    by_cases hundef : (mem.sym (l.symAddr rel)).shndx = 0
    · simp only [if_pos hundef]
      rcases mem.string fuel (l.strtab + (mem.sym (l.symAddr rel)).name) with _ | name
      · rfl
      · by_cases hname : name = []
        · simp only [if_pos hname]
          rfl
        · simp only [if_neg hname]
          rcases Lookup.lookupName k ksymNameLen fuel name with stop | symaddr
          · rfl
          · by_cases hnone : symaddr = 2 ^ 64 - 1
            · simp only [if_pos hnone]
            · simp only [if_neg hnone]
              rfl
    · simp only [if_neg hundef]
      rfl
  · simp only [if_neg hword]
    by_cases hrel : rel.type = rX86_64Relative
    · simp only [if_pos hrel]
      rfl
    · simp only [if_neg hrel]

theorem outcome_congr {mem mem' : Mem} {rel : Rela}
    (hsym : rel.type ≠ rX86_64Relative → mem'.sym (l.symAddr rel) = mem.sym (l.symAddr rel))
    (hname : rel.type ≠ rX86_64Relative → (mem.sym (l.symAddr rel)).shndx = 0 →
      mem'.string fuel (l.strtab + (mem.sym (l.symAddr rel)).name) =
        mem.string fuel (l.strtab + (mem.sym (l.symAddr rel)).name)) :
    outcome k ksymNameLen fuel loadedAt l mem' rel =
      outcome k ksymNameLen fuel loadedAt l mem rel := by
  rw [outcome, outcome]
  by_cases hword : rel.type = rX86_64_64 ∨ rel.type = rX86_64GlobDat ∨ rel.type = rX86_64JumpSlot
  · have hrel : rel.type ≠ rX86_64Relative := by
      rcases hword with h | h | h <;> rw [h] <;> decide
    rw [if_pos hword, if_pos hword, hsym hrel]
    by_cases hundef : (mem.sym (l.symAddr rel)).shndx = 0
    · rw [if_pos hundef, if_pos hundef, hname hrel hundef]
    · rw [if_neg hundef, if_neg hundef]
  · rw [if_neg hword, if_neg hword]

/-- What an entry writes when it is read from the image. -/
def imageOutcome (k : Lookup.Image) (ksymNameLen fuel : ℕ) (file : File) (loadedAt : UInt64)
    (mem₀ : Mem) (rel : Rela) : Except Stop (Option (Option UInt64)) :=
  outcome k ksymNameLen fuel loadedAt (tables file loadedAt) (image file loadedAt mem₀) rel

/-- The memory in the middle of the loops: what the entries in `past` write is there, and the rest is the
image. -/
structure Written (k : Lookup.Image) (ksymNameLen fuel : ℕ) (file : File) (loadedAt : UInt64)
    (mem₀ : Mem) (past : List Rela) (mem : Mem) : Prop where
  ok : ∀ rel ∈ past, ∃ w, imageOutcome k ksymNameLen fuel file loadedAt mem₀ rel = .ok (some w)
  hit : ∀ rel ∈ past, ∀ v,
    imageOutcome k ksymNameLen fuel file loadedAt mem₀ rel = .ok (some (some v)) →
      ∀ b, InWord loadedAt rel b →
        mem b = (encodeLE 8 v.toNat).getD (b - (loadedAt + rel.offset)).toNat 0
  miss : ∀ b, (∀ rel ∈ past, ∀ v,
    imageOutcome k ksymNameLen fuel file loadedAt mem₀ rel = .ok (some (some v)) →
      ¬ InWord loadedAt rel b) → mem b = image file loadedAt mem₀ b

variable {mem₀ mem mem' : Mem} {past : List Rela}

/-- Nothing that an entry needs has been written. -/
theorem Written.outcome_eq (hinv : Written k ksymNameLen fuel file loadedAt mem₀ past mem)
    (hwf : WellFormed file loadedAt mem₀) (hpast : ∀ rel ∈ past, rel ∈ entries file loadedAt mem₀)
    {rel : Rela} (hrel : rel ∈ entries file loadedAt mem₀) :
    outcome k ksymNameLen fuel loadedAt (tables file loadedAt) mem rel =
      imageOutcome k ksymNameLen fuel file loadedAt mem₀ rel := by
  refine outcome_congr (fun hword => ?_) fun hword hundef => ?_
  · refine Mem.sym_congr fun b hb => hinv.miss b fun rel' hrel' v _ hin => ?_
    exact hwf.symbol rel' (hpast rel' hrel') rel hrel hword b hin hb
  · obtain ⟨f, name, hstring, hfree⟩ := hwf.name rel hrel ⟨hword, hundef⟩
    refine Mem.string_congr hstring (fun i hi => hinv.miss _ fun rel' hrel' v _ hin => ?_) fuel
    exact hfree rel' (hpast rel' hrel') i hi hin

/-- One entry. -/
theorem Written.after (hinv : Written k ksymNameLen fuel file loadedAt mem₀ past mem)
    (hwf : WellFormed file loadedAt mem₀) (hpast : ∀ rel ∈ past, rel ∈ entries file loadedAt mem₀)
    {rel : Rela} (hrel : rel ∈ entries file loadedAt mem₀) {w : Option UInt64}
    (hw : imageOutcome k ksymNameLen fuel file loadedAt mem₀ rel = .ok (some w)) :
    Written k ksymNameLen fuel file loadedAt mem₀ (past ++ [rel])
      (mem.after (loadedAt + rel.offset) w) := by
  refine ⟨fun rel' hrel' => ?_, fun rel' hrel' v hv b hb => ?_, fun b hb => ?_⟩
  · rcases List.mem_append.mp hrel' with hold | hnew
    · exact hinv.ok rel' hold
    · obtain rfl := List.mem_singleton.mp hnew
      exact ⟨w, hw⟩
  · have hmem : rel' ∈ entries file loadedAt mem₀ := by
      rcases List.mem_append.mp hrel' with hold | hnew
      · exact hpast rel' hold
      · exact List.mem_singleton.mp hnew ▸ hrel
    rcases hwf.apart rel' hmem rel hrel with rfl | hapart
    · obtain rfl : w = some v := Option.some.inj (Except.ok.inj (hw.symm.trans hv))
      exact Mem.storeWord_of_lt hb
    · have hold : rel' ∈ past := by
        refine (List.mem_append.mp hrel').resolve_right fun hnew => ?_
        obtain rfl := List.mem_singleton.mp hnew
        exact hapart b ⟨hb, hb⟩
      rw [← hinv.hit rel' hold v hv b hb]
      cases w with
      | none => rfl
      | some v' => exact Mem.storeWord_of_not_lt fun hin => hapart b ⟨hb, hin⟩
  · rw [← hinv.miss b fun rel' hold => hb rel' (List.mem_append_left _ hold)]
    cases w with
    | none => rfl
    | some v =>
        exact Mem.storeWord_of_not_lt (hb rel (List.mem_append_right _ List.mem_cons_self) v hw)

/-- A loop over entries. -/
theorem Written.relocAll {as : List UInt64} (has : ∀ a ∈ as, a ∈ entrySlots file loadedAt)
    (hinv : Written k ksymNameLen fuel file loadedAt mem₀ past mem)
    (hwf : WellFormed file loadedAt mem₀) (hpast : ∀ rel ∈ past, rel ∈ entries file loadedAt mem₀)
    (hrun : relocAll k ksymNameLen fuel loadedAt (tables file loadedAt) as mem = .ok (some mem')) :
    Written k ksymNameLen fuel file loadedAt mem₀
      (past ++ as.map (image file loadedAt mem₀).rela) mem' := by
  induction as generalizing past mem with
  | nil =>
      obtain rfl : mem = mem' := Option.some.inj (Except.ok.inj hrun)
      rwa [List.map_nil, List.append_nil]
  | cons a as ih =>
      have ha := has a List.mem_cons_self
      have hentry : mem.rela a = (image file loadedAt mem₀).rela a :=
        Mem.rela_congr fun b hb => hinv.miss b fun rel hrel v _ hin =>
          hwf.slot rel (hpast rel hrel) a ha b hin hb
      have hrel : (image file loadedAt mem₀).rela a ∈ entries file loadedAt mem₀ :=
        List.mem_map_of_mem ha
      rw [Mod.relocAll, hentry, reloc_eq, hinv.outcome_eq hwf hpast hrel] at hrun
      rcases hw : imageOutcome k ksymNameLen fuel file loadedAt mem₀
          ((image file loadedAt mem₀).rela a) with stop | _ | w
      · rw [hw] at hrun
        cases hrun
      · rw [hw] at hrun
        cases hrun
      · rw [hw] at hrun
        rw [List.map_cons, List.append_cons]
        refine ih (fun a' ha' => has a' (List.mem_cons_of_mem _ ha')) (hinv.after hwf hpast hrel hw)
          (fun rel hmem => ?_) hrun
        rcases List.mem_append.mp hmem with hold | hnew
        · exact hpast rel hold
        · exact List.mem_singleton.mp hnew ▸ hrel

/-- After both loops. -/
theorem load_written (hwf : WellFormed file loadedAt mem₀)
    (h : load k ksymNameLen fuel file loadedAt mem₀ = .ok (some mem')) :
    Written k ksymNameLen fuel file loadedAt mem₀ (entries file loadedAt mem₀) mem' := by
  have hinit : Written k ksymNameLen fuel file loadedAt mem₀ [] (image file loadedAt mem₀) :=
    ⟨nofun, nofun, fun _ _ => rfl⟩
  exact hinit.relocAll (fun _ h => h) hwf nofun (load_relocAll hwf h)

end Run

/-! ## The words of a loaded module -/

section Words

variable {k : Lookup.Image} {ksymNameLen fuel : ℕ} {file : File} {loadedAt : UInt64} {mem mem' : Mem}
  {table : List SymEntry} {rel : Rela}

theorem word_ne_relative
    (h : rel.type = rX86_64_64 ∨ rel.type = rX86_64GlobDat ∨ rel.type = rX86_64JumpSlot) :
    rel.type ≠ rX86_64Relative := by
  rcases h with h | h | h <;> rw [h] <;> decide

theorem string_eq_nil_iff {name : List UInt8} {a : UInt64} (h : mem.string fuel a = some name) :
    name = [] ↔ mem a = 0 := by
  cases fuel with
  | zero => cases h
  | succ fuel =>
      rw [Mem.string, readString, show a + UInt64.ofNat 0 = a from UInt64.add_zero a] at h
      by_cases hzero : mem a = 0
      · rw [if_pos hzero] at h
        exact iff_of_true (Option.some.inj h).symm hzero
      · rw [if_neg hzero] at h
        obtain ⟨rest, -, rfl⟩ := Option.map_eq_some_iff.mp h
        exact iff_of_false (List.cons_ne_nil _ _) hzero

/-- The symbol of an entry has one address. -/
theorem IsSymbol.unique {s s' : UInt64} (h : IsSymbol file loadedAt mem table rel s)
    (h' : IsSymbol file loadedAt mem table rel s') : s = s' := by
  by_cases hundef : (symOf file loadedAt mem rel).shndx = 0
  · obtain ⟨f, name, hname, hnil, hs⟩ := h.2 hundef
    obtain ⟨f', name', hname', hnil', hs'⟩ := h'.2 hundef
    obtain rfl : name = name' := readString_unique hname hname'
    by_cases hempty : name = []
    · exact (hnil hempty).trans (hnil' hempty).symm
    · exact UInt64.toNat_inj.mp ((hs hempty).unique (hs' hempty))
  · exact (h.1 hundef).trans (h'.1 hundef).symm

/-- What an entry writes, if loading goes on. -/
theorem imageOutcome_spec (h : k.Holds ksymNameLen table)
    (hleast : ∀ q r, Lookup.lookupName k ksymNameLen fuel q = .ok r → r ≠ 2 ^ 64 - 1 →
      IsLeast {a | ∃ s ∈ table, s.name = q ∧ s.addr = a} r) {w : Option UInt64}
    (hw : imageOutcome k ksymNameLen fuel file loadedAt mem rel = .ok (some w)) :
    (rel.type = rX86_64Relative ∧ w = some (loadedAt + rel.addend)) ∨
    (rel.type ≠ rX86_64Relative ∧ ∃ s, IsSymbol file loadedAt mem table rel s ∧
      ((Unnamed file loadedAt mem rel ∧ s = 0 ∧ w = none) ∨
        (¬ Unnamed file loadedAt mem rel ∧ w = some s))) := by
  rw [imageOutcome, outcome] at hw
  by_cases hword : rel.type = rX86_64_64 ∨ rel.type = rX86_64GlobDat ∨ rel.type = rX86_64JumpSlot
  · refine Or.inr ⟨word_ne_relative hword, ?_⟩
    rw [if_pos hword] at hw
    change (if (symOf file loadedAt mem rel).shndx = 0 then _ else _) = _ at hw
    by_cases hundef : (symOf file loadedAt mem rel).shndx = 0
    · rw [if_pos hundef] at hw
      change (match (image file loadedAt mem).string fuel (nameOf file loadedAt mem rel) with
        | none => _ | some name => _) = _ at hw
      have hsymbol : ∀ {s name}, (image file loadedAt mem).string fuel (nameOf file loadedAt mem rel) =
          some name → (name = [] → s = 0) →
            (name ≠ [] → IsLeast {a | ∃ sym ∈ table, sym.name = name ∧ sym.addr = a} s.toNat) →
              IsSymbol file loadedAt mem table rel s :=
        fun hname hnil hs => ⟨fun hdef => absurd hundef hdef, fun _ => ⟨fuel, _, hname, hnil, hs⟩⟩
      rcases hname : (image file loadedAt mem).string fuel (nameOf file loadedAt mem rel) with _ | name
      · rw [hname] at hw
        cases hw
      rw [hname] at hw
      dsimp only at hw
      have hnil := string_eq_nil_iff hname
      by_cases hempty : name = []
      · rw [if_pos hempty] at hw
        refine ⟨0, hsymbol hname (fun _ => rfl) (absurd hempty), Or.inl ⟨?_, rfl, ?_⟩⟩
        · exact ⟨⟨word_ne_relative hword, hundef⟩, hnil.mp hempty⟩
        · exact (Option.some.inj (Except.ok.inj hw)).symm
      · rw [if_neg hempty] at hw
        rcases hlookup : Lookup.lookupName k ksymNameLen fuel name with stop | symaddr
        · rw [hlookup] at hw
          cases hw
        rw [hlookup] at hw
        dsimp only at hw
        by_cases hnone : symaddr = 2 ^ 64 - 1
        · rw [if_pos hnone] at hw
          cases hw
        rw [if_neg hnone] at hw
        have hmin := hleast name symaddr hlookup hnone
        have hlt : symaddr < 2 ^ 64 := by
          obtain ⟨s, hs, -, rfl⟩ := hmin.1
          exact h.addr_lt hs
        refine ⟨.ofNat symaddr, hsymbol hname (fun h => absurd h hempty) fun _ => ?_,
          Or.inr ⟨fun hun => hempty (hnil.mpr hun.2), ?_⟩⟩
        · rwa [Mem.toNat_ofNat_of_lt hlt]
        · exact (Option.some.inj (Except.ok.inj hw)).symm
    · rw [if_neg hundef] at hw
      refine ⟨loadedAt + (symOf file loadedAt mem rel).value,
        ⟨fun _ => rfl, fun h => absurd h hundef⟩, Or.inr ⟨fun hun => hundef hun.1.2, ?_⟩⟩
      exact (Option.some.inj (Except.ok.inj hw)).symm
  · rw [if_neg hword] at hw
    by_cases hrel : rel.type = rX86_64Relative
    · rw [if_pos hrel] at hw
      exact Or.inl ⟨hrel, (Option.some.inj (Except.ok.inj hw)).symm⟩
    · rw [if_neg hrel] at hw
      cases hw

/-- A word that has been written. -/
theorem Written.word_eq {past : List Rela}
    (h : Written k ksymNameLen fuel file loadedAt mem past mem') (hrel : rel ∈ past) {v : UInt64}
    (hv : imageOutcome k ksymNameLen fuel file loadedAt mem rel = .ok (some (some v))) :
    mem'.word (loadedAt + rel.offset) = v := Mem.word_eq fun b hb => h.hit rel hrel v hv b hb

/-- A word that has been left out. -/
theorem Written.word_image
    (h : Written k ksymNameLen fuel file loadedAt mem (entries file loadedAt mem) mem')
    (hwf : WellFormed file loadedAt mem) (hrel : rel ∈ entries file loadedAt mem)
    (hnone : imageOutcome k ksymNameLen fuel file loadedAt mem rel = .ok (some none)) :
    mem'.word (loadedAt + rel.offset) = (image file loadedAt mem).word (loadedAt + rel.offset) := by
  refine congrArg UInt64.ofNat (Mem.read_congr (by decide) fun b hb => h.miss b ?_)
  rintro rel' hrel' v hv hin
  rcases hwf.apart rel' hrel' rel hrel with rfl | hapart
  · cases hnone.symm.trans hv
  · exact hapart b ⟨hin, hb⟩

end Words

/-- The headers, the dynamic section, the symbols and the first 16 bytes of an entry. -/
def exampleHead : List UInt8 :=
  [0x7F, 0x45, 0x4C, 0x46, 2, 1, 1, 0] ++ encodeLE 8 0 ++ encodeTable 2 [3, 62] ++ encodeLE 4 1 ++
    encodeTable 8 [0, 64, 0] ++ encodeLE 4 0 ++ encodeTable 2 [64, 56, 2, 0, 0, 0] ++
    encodeTable 4 [1, 6] ++ encodeTable 8 [0, 0, 0, 376, 376, 4096] ++
    encodeTable 4 [2, 6] ++ encodeTable 8 [176, 176, 176, 112, 112, 8] ++
    encodeTable 8 [5, 360, 6, 288, 7, 336, 8, 24, 9, 24, 11, 24, 0, 0] ++
    encodeTable 8 [0, 0, 0] ++ encodeLE 4 1 ++ [0x11, 0] ++ encodeLE 2 1 ++ encodeTable 8 [16, 8] ++
    encodeTable 8 [368, 0x100000001]

/-- The addend, the names and the word that is relocated. -/
def exampleTail (addend : ℕ) : List UInt8 :=
  encodeLE 8 addend ++ [0, 97, 0, 0, 0, 0, 0, 0, 0, 0, 0, 0, 0, 0, 0, 0]

/-- A module with one symbol, whose address is relocated with an addend. -/
def exampleFile (addend : ℕ) : File where
  data := exampleHead ++ exampleTail addend
  small := by
    have hhead : exampleHead.length = 352 := by decide +kernel
    rw [List.length_append, hhead, exampleTail, List.length_append, length_encodeLE]
    decide

def zeroMem : Mem := fun _ => 0

def exampleSegment : Phdr := ⟨1, 6, 0, 0, 376, 376⟩

deriving instance DecidableEq for Phdr

def exampleTables : Locals where
  strtab := 0x10168
  symtab := 0x10120
  rela := 0x10150
  relasz := 24
  relaent := 24
  syment := 24

def exampleRela (addend : ℕ) : Rela where
  offset := 368
  info := 0x100000001
  addend := .ofNat addend

theorem exampleRela_type (addend : ℕ) : (exampleRela addend).type = rX86_64_64 := by
  change (0x100000001 : UInt64) &&& 0xFFFFFFFF = 1
  decide

theorem exampleTables_symAddr (addend : ℕ) :
    exampleTables.symAddr (exampleRela addend) = 0x10138 := by
  have hsym : (exampleRela addend).sym = 1 := by
    change (0x100000001 : UInt64) >>> 32 = 1
    decide
  rw [Locals.symAddr, hsym]
  decide

section Example

variable {addend : ℕ} (haddend : addend = 0 ∨ addend = 8)

include haddend

theorem exampleFile_phdrs :
    phdrs (exampleFile addend) = [exampleSegment, ⟨2, 6, 176, 176, 112, 112⟩] := by
  rcases haddend with rfl | rfl <;> decide +kernel

theorem exampleFile_tables : tables (exampleFile addend) 0x10000 = exampleTables := by
  rcases haddend with rfl | rfl <;> decide +kernel

theorem exampleFile_entries : entries (exampleFile addend) 0x10000 zeroMem =
    [exampleRela addend] := by
  rcases haddend with rfl | rfl <;> decide +kernel

theorem exampleFile_symOf {rel : Rela} (hrel : rel ∈ entries (exampleFile addend) 0x10000 zeroMem) :
    symOf (exampleFile addend) 0x10000 zeroMem rel = ⟨1, 1, 16⟩ := by
  rw [exampleFile_entries haddend] at hrel
  obtain rfl := List.mem_singleton.mp hrel
  rcases haddend with rfl | rfl <;> decide +kernel

theorem exampleFile_wellFormed : WellFormed (exampleFile addend) 0x10000 zeroMem := by
  have hloaded : loaded (phdrs (exampleFile addend)) = [exampleSegment] := by
    rw [exampleFile_phdrs haddend]
    decide
  have hslots : entrySlots (exampleFile addend) 0x10000 = [0x10150] := by
    rw [entrySlots, exampleFile_tables haddend]
    decide
  have hentries := exampleFile_entries haddend
  refine ⟨fun phdr hphdr => ?_, fun phdr hphdr phdr' hphdr' b _ _ => ?_,
    fun rel hrel rel' hrel' => ?_, fun rel hrel a ha b hin hslot => ?_,
    fun rel hrel rel' hrel' _ b hin hsym => ?_, fun rel hrel hundef => ?_⟩
  · rw [hloaded] at hphdr
    obtain rfl := List.mem_singleton.mp hphdr
    decide
  · rw [hloaded] at hphdr hphdr'
    rw [List.mem_singleton.mp hphdr, List.mem_singleton.mp hphdr']
  · rw [hentries] at hrel hrel'
    rw [List.mem_singleton.mp hrel, List.mem_singleton.mp hrel']
    exact Or.inl rfl
  · rw [hslots] at ha
    rw [hentries] at hrel
    obtain rfl := List.mem_singleton.mp ha
    obtain rfl := List.mem_singleton.mp hrel
    exact Mem.not_sub_lt (a := 0x10150) (o := 32) hin (by decide) (by decide) hslot
  · rw [hentries] at hrel hrel'
    obtain rfl := List.mem_singleton.mp hrel
    obtain rfl := List.mem_singleton.mp hrel'
    rw [exampleFile_tables haddend] at hsym
    rw [exampleTables_symAddr] at hsym
    exact Mem.not_sub_lt (a := 0x10138) (o := 56) hin (by decide) (by decide) hsym
  · have hshndx := hundef.2
    rw [exampleFile_symOf haddend hrel] at hshndx
    exact absurd hshndx (by decide)

/-- The memory when the example has been loaded. -/
def exampleLoaded (addend : ℕ) : Mem :=
  (copySegment (exampleFile addend) 0x10000 exampleSegment (zeroMem.mapPages 0x10000 4096)).storeWord
    0x10170 0x10010

theorem exampleFile_load (k : Lookup.Image) (ksymNameLen fuel : ℕ) :
    load k ksymNameLen fuel (exampleFile addend) 0x10000 zeroMem =
      .ok (some (exampleLoaded addend)) := by
  have hvalid : valid (Ehdr.parse (exampleFile addend).data) = true := by
    rcases haddend with rfl | rfl <;> decide +kernel
  have hsize : maxSize (exampleFile addend) (Ehdr.parse (exampleFile addend).data)
      (List.range (Ehdr.parse (exampleFile addend).data).phnum) 0 = .ok 4096 := by
    rcases haddend with rfl | rfl <;> decide +kernel
  have hdyn : readDynamic 0x10000 (dyntable (exampleFile addend) ⟨2, 6, 176, 176, 112, 112⟩) {} =
      tables (exampleFile addend) 0x10000 := by
    rcases haddend with rfl | rfl <;> decide +kernel
  rw [exampleFile_tables haddend] at hdyn
  let mem := copySegment (exampleFile addend) 0x10000 exampleSegment (zeroMem.mapPages 0x10000 4096)
  have hheaders : loadHeaders (exampleFile addend) 0x10000 (phdrs (exampleFile addend))
      (zeroMem.mapPages 0x10000 4096) {} = .ok (mem, exampleTables) := by
    rw [exampleFile_phdrs haddend, loadHeaders, loadHeader, if_neg (by decide), if_pos (by decide)]
    dsimp only
    rw [loadHeaders, loadHeader, if_neg (by decide), if_neg (by decide), if_pos (by decide)]
    dsimp only
    rw [hdyn, if_neg (by decide)]
    rfl
  have hrela : mem.rela 0x10150 = exampleRela addend := by
    rcases haddend with rfl | rfl <;> decide +kernel
  have hsym : mem.sym 0x10138 = ⟨1, 1, 16⟩ := by
    rcases haddend with rfl | rfl <;> decide +kernel
  have hreloc : reloc k ksymNameLen fuel 0x10000 exampleTables mem
      (exampleRela addend) = .ok (some (exampleLoaded addend)) := by
    rw [reloc, exampleRela_type]
    dsimp only
    rw [if_pos (Or.inl rfl), exampleTables_symAddr, hsym, if_neg (by decide)]
    rfl
  have hfirst : relocAll k ksymNameLen fuel 0x10000 exampleTables
      (slots exampleTables.rela exampleTables.relasz exampleTables.relaent) mem =
        .ok (some (exampleLoaded addend)) := by
    rw [show slots exampleTables.rela exampleTables.relasz exampleTables.relaent = [0x10150] by decide,
      relocAll, hrela, hreloc]
    rfl
  rw [phdrs] at hheaders
  rw [load]
  simp only [hvalid, hsize, hheaders, bind, Except.bind, hfirst]
  rfl

end Example

end Ilobilix.Elf.Mod
