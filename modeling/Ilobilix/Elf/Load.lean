import Ilobilix.Elf.Stack
import Ilobilix.Memory.Vmm.Overlay

/-!
# Loading the segments of an ELF program

`load_file` makes a memory object for each `PT_LOAD` header, writes the bytes of the file and the
zeroes behind them to it and maps it at the address of the segment, rounded out to whole pages. The
headers are taken in order, and `map` replaces what is there: a page in which one segment ends and the
next one begins is taken from the first of the two headers and given to the second, with zeroes where
the bytes of the first one were. A segment whose first page is taken by a later one that began on an
earlier page also has its other pages shifted, by the offset that `map` gives to the rest of a mapping.

`load_file_iff`: as long as no segment is shifted in that way, a program reads its own bytes exactly
when every byte that a later segment's pages cover is zero, and no segment reaches into the last page of
the 64-bit addresses.

A write that runs out of memory ends in a panic, so that a file that has been loaded has got its pages.
What `vfs::resolve` and `vfs::reduce` make of the path of an interpreter is a parameter.
-/

namespace Ilobilix.Elf

open Vmm Intervals

/-! ## Files and headers -/

/-- The contents of a file; `pread` returns a signed number. -/
structure File where
  data : List UInt8
  small : data.length < 2 ^ 63

def File.pread (file : File) (offset length : ℕ) : List UInt8 :=
  (file.data.drop offset).take length

/-- A field of a header. -/
def field (bytes : List UInt8) (offset size : ℕ) : ℕ := readLE (fun i => bytes.getD i 0) size offset

/-- `Elf64_Ehdr`. -/
structure Ehdr where
  ident : List UInt8
  type : ℕ
  machine : ℕ
  entry : UInt64
  phoff : UInt64
  phentsize : ℕ
  phnum : ℕ

/-- `Elf64_Phdr`. -/
structure Phdr where
  type : ℕ
  flags : ℕ
  offset : UInt64
  vaddr : UInt64
  filesz : UInt64
  memsz : UInt64

def ehdrSize : ℕ := 64
def phdrSize : ℕ := 56

def Ehdr.parse (bytes : List UInt8) : Ehdr where
  ident := bytes.take 16
  type := field bytes 16 2
  machine := field bytes 18 2
  entry := .ofNat (field bytes 24 8)
  phoff := .ofNat (field bytes 32 8)
  phentsize := field bytes 54 2
  phnum := field bytes 56 2

def Phdr.parse (bytes : List UInt8) : Phdr where
  type := field bytes 0 4
  flags := field bytes 4 4
  offset := .ofNat (field bytes 8 8)
  vaddr := .ofNat (field bytes 16 8)
  filesz := .ofNat (field bytes 32 8)
  memsz := .ofNat (field bytes 40 8)

def etDyn : ℕ := 3
def ptLoad : ℕ := 1
def ptInterp : ℕ := 3
def ptPhdr : ℕ := 6
def pfX : ℕ := 0
def pfW : ℕ := 1
def pfR : ℕ := 2
def emCurrent : ℕ := 62

/-- The header of a file; `none` is a file that is too short. -/
def File.ehdr (file : File) : Option Ehdr :=
  let bytes := file.pread 0 ehdrSize
  if bytes.length = ehdrSize then some (.parse bytes) else none

/-- A program header. -/
def File.phdr (file : File) (ehdr : Ehdr) (i : ℕ) : Option Phdr :=
  let offset := (ehdr.phoff.toNat + i * ehdr.phentsize) % 2 ^ 64
  let bytes := file.pread offset phdrSize
  if bytes.length = phdrSize then some (.parse bytes) else none

/-- `format::identify`. -/
def identify (file : File) : Option Bool :=
  file.ehdr.map fun ehdr =>
    ehdr.ident.take 4 == [0x7F, 0x45, 0x4C, 0x46] && ehdr.ident.getD 4 0 == 2 &&
      ehdr.ident.getD 5 0 == 1 && ehdr.ident.getD 7 0 == 0 && ehdr.ident.getD 6 0 == 1 &&
        ehdr.machine == emCurrent

/-! ## `load_file` -/

/-- An address space and the objects that its mappings name. -/
structure Memory where
  space : Space
  objs : List Object

namespace Phdr

/-- `phdr.p_vaddr & (psize - 1)`. -/
def misalign (phdr : Phdr) : UInt64 := phdr.vaddr &&& 0xFFF

def prot (phdr : Phdr) : BitVec 8 :=
  (if phdr.flags.testBit pfR then 1 else 0) ||| (if phdr.flags.testBit pfW then 2 else 0) |||
    (if phdr.flags.testBit pfX then 4 else 0)

/-- The object of a segment: the bytes of the file, and zeroes behind them. -/
def object (phdr : Phdr) (buffer : List UInt8) : Object × ℕ × ℕ :=
  let (obj, written) := Object.new.write (fun _ => true) phdr.misalign.toNat buffer
  if phdr.filesz < phdr.memsz then
    let zeroesLen := phdr.memsz.toNat - phdr.filesz.toNat
    let (obj, zeroed) := obj.write (fun _ => true) (phdr.misalign + phdr.filesz).toNat
      (List.replicate zeroesLen 0)
    (obj, written, zeroed)
  else (obj, written, phdr.memsz.toNat - phdr.filesz.toNat)

end Phdr

/-- `flag::private_`. -/
def flagPrivate : BitVec 8 := 2

/-- `case PT_LOAD` of `load_file`. -/
def loadSegment (pm : Pagemap) (fuel : ℕ) (file : File) (addr : UInt64) (phdr : Phdr) (s : Memory) :
    Except Stop Memory :=
  let address := addr + phdr.vaddr - phdr.misalign
  let buffer := file.pread phdr.offset.toNat phdr.filesz.toNat
  let (obj, written, zeroed) := phdr.object buffer
  if buffer.length ≠ phdr.filesz.toNat then .error .panic
  else if written ≠ phdr.filesz.toNat then .error .panic
  else if zeroed ≠ phdr.memsz.toNat - phdr.filesz.toNat then .error .panic
  else
    match s.space.run pm fuel
        (.map address (phdr.memsz + phdr.misalign) phdr.prot flagPrivate s.objs.length 0) with
    | .error stop => .error stop
    | .ok (_, .error _) => .error .panic
    | .ok (space, .ok ()) => .ok ⟨space, s.objs ++ [obj]⟩

/-- What the loop of `load_file` carries along. -/
structure Progress (F : Type*) where
  memory : Memory
  auxv : Auxval
  interp : Option F

section LoadFile

variable {F : Type*} (resolve : List UInt8 → Option F) (pm : Pagemap) (fuel : ℕ) (file : File)

/-- One turn of the loop; `none` leaves the function without a result. -/
def loadHeader (addr : UInt64) (phdr : Phdr) (s : Progress F) : Except Stop (Option (Progress F)) :=
  if phdr.type = ptLoad then
    match loadSegment pm fuel file addr phdr s.memory with
    | .error stop => .error stop
    | .ok memory => .ok (some { s with memory := memory })
  else if phdr.type = ptPhdr then
    .ok (some { s with auxv := { s.auxv with atPhdr := addr + phdr.vaddr } })
  else if phdr.type = ptInterp then
    let length := (phdr.filesz - 1).toNat
    let path := file.pread phdr.offset.toNat length
    if path.length ≠ length then .error .panic
    else
      match resolve path with
      | none => .ok none
      | some interp => .ok (some { s with interp := some interp })
  else .ok (some s)

/-- The loop over the program headers. -/
def loadHeaders (addr : UInt64) (ehdr : Ehdr) : List ℕ → Progress F →
    Except Stop (Option (Progress F))
  | [], s => .ok (some s)
  | i :: is, s =>
      match file.phdr ehdr i with
      | none => .error .panic
      | some phdr =>
          match loadHeader resolve pm fuel file addr phdr s with
          | .error stop => .error stop
          | .ok none => .ok none
          | .ok (some s) => loadHeaders addr ehdr is s

/-- The address a file is loaded at. -/
def loadAddr (addr : UInt64) (ehdr : Ehdr) : UInt64 := if ehdr.type ≠ etDyn then 0 else addr

def loadFile (addr : UInt64) (memory : Memory) : Except Stop (Option (Progress F)) :=
  match file.ehdr with
  | none => .error .panic
  | some ehdr =>
      let addr := loadAddr addr ehdr
      let auxv : Auxval := {
        atEntry := addr + ehdr.entry
        atPhdr := addr + ehdr.phoff
        atPhent := .ofNat ehdr.phentsize
        atPhnum := .ofNat ehdr.phnum }
      loadHeaders resolve pm fuel file addr ehdr (List.range ehdr.phnum) ⟨memory, auxv, none⟩

end LoadFile

/-! ## What a program should read -/

/-- The `PT_LOAD` headers in order. -/
def File.segments (file : File) : List Phdr :=
  match file.ehdr with
  | none => []
  | some ehdr => (List.range ehdr.phnum).filterMap fun i =>
      (file.phdr ehdr i).filter fun phdr => phdr.type = ptLoad

namespace Phdr

/-- The address of the first byte of a segment. -/
def start (addr : UInt64) (phdr : Phdr) : ℕ := (addr + phdr.vaddr).toNat

/-- The page lies in the segment, rounded out to whole pages. -/
def PageIn (addr : UInt64) (phdr : Phdr) (p : ℕ) : Prop :=
  phdr.start addr / psize ≤ p ∧ p * psize < phdr.start addr + phdr.memsz.toNat

/-- The byte at a distance from the start of a segment. -/
def byteAt (file : File) (phdr : Phdr) (k : ℕ) : UInt8 :=
  if k < phdr.filesz.toNat then file.data.getD (phdr.offset.toNat + k) 0 else 0

/-- The segment does not reach into the last page of the addresses. -/
def Fits (addr : UInt64) (phdr : Phdr) : Prop :=
  phdr.start addr + phdr.memsz.toNat + psize ≤ 2 ^ 64

/-- The range of bytes of a segment, in the file's addresses. -/
def ByteIn (phdr : Phdr) (b : ℕ) : Prop :=
  phdr.vaddr.toNat ≤ b ∧ b < phdr.vaddr.toNat + phdr.memsz.toNat

/-- Two ranges of bytes without a common byte. -/
def Apart (phdr later : Phdr) : Prop := ∀ b, ¬(phdr.ByteIn b ∧ later.ByteIn b)

/-- A later segment begins on an earlier page and covers the first page of this one, but not all of
its pages. -/
def Shifted (addr : UInt64) (phdr later : Phdr) : Prop :=
  later.start addr / psize < phdr.start addr / psize ∧
    later.PageIn addr (phdr.start addr / psize) ∧ ∃ p, phdr.PageIn addr p ∧ ¬later.PageIn addr p

/-- The bytes of a segment that the pages of a later one cover are zero. -/
def Blank (file : File) (addr : UInt64) (phdr later : Phdr) : Prop :=
  ∀ k < phdr.memsz.toNat, later.PageIn addr ((phdr.start addr + k) / psize) → phdr.byteAt file k = 0

end Phdr

/-- The segments are ranges of addresses without common bytes, and their bytes in the file are not
more than in memory. -/
structure File.Separate (file : File) : Prop where
  range : ∀ phdr ∈ file.segments, phdr.vaddr.toNat + phdr.memsz.toNat ≤ 2 ^ 64
  filesz : ∀ phdr ∈ file.segments, phdr.filesz ≤ phdr.memsz
  offset : ∀ phdr ∈ file.segments, phdr.offset.toNat % psize = phdr.vaddr.toNat % psize
  apart : file.segments.Pairwise Phdr.Apart

/-- A byte, read through the mapping of its page and the object behind it. -/
def Memory.read (s : Memory) (b : ℕ) : Option UInt8 :=
  (view s.space.tree (b / psize)).bind fun c =>
    s.objs[c.obj]?.map fun obj => obj.byte (c.idx * psize + b % psize)

/-- Every byte of every segment is the one of the file, or zero. -/
def Memory.Reads (s : Memory) (file : File) (addr : UInt64) : Prop :=
  ∀ phdr ∈ file.segments, ∀ k < phdr.memsz.toNat,
    s.read ((phdr.start addr + k) % 2 ^ 64) = some (phdr.byteAt file k)

/-! ## The object of a segment -/

namespace Phdr

variable {file : File} {phdr : Phdr}

theorem misalign_toNat (phdr : Phdr) : phdr.misalign.toNat = phdr.vaddr.toNat % psize := by
  rw [misalign, UInt64.toNat_and]
  exact Nat.and_two_pow_sub_one_eq_mod _ 12

theorem byte_new (x : ℕ) : Object.new.byte x = 0 := rfl

theorem getD_pread (hlength : (file.pread phdr.offset.toNat phdr.filesz.toNat).length =
    phdr.filesz.toNat) (k : ℕ) :
    (file.pread phdr.offset.toNat phdr.filesz.toNat).getD k 0 = phdr.byteAt file k := by
  rw [byteAt]
  split
  · rename_i hk
    rw [File.pread, List.getD_eq_getElem?_getD, List.getElem?_take_of_lt hk, List.getElem?_drop,
      List.getD_eq_getElem?_getD]
  · rw [List.getD_eq_default]
    omega

/-- The bytes of the object of a segment. -/
theorem byte_object (hlength : (file.pread phdr.offset.toNat phdr.filesz.toNat).length =
    phdr.filesz.toNat) (hrange : phdr.vaddr.toNat + phdr.memsz.toNat ≤ 2 ^ 64) (x : ℕ) :
    (phdr.object (file.pread phdr.offset.toNat phdr.filesz.toNat)).1.byte x =
      if phdr.misalign.toNat ≤ x then phdr.byteAt file (x - phdr.misalign.toNat) else 0 := by
  have hmis : phdr.misalign.toNat < psize := by
    rw [misalign_toNat]
    exact Nat.mod_lt _ (by decide)
  have hsmall : phdr.filesz.toNat < 2 ^ 63 := by
    have := file.small
    rw [File.pread, List.length_take, List.length_drop] at hlength
    omega
  have hfirst : ∀ x, (Object.new.write (fun _ => true) phdr.misalign.toNat
      (file.pread phdr.offset.toNat phdr.filesz.toNat)).1.byte x =
        if phdr.misalign.toNat ≤ x then phdr.byteAt file (x - phdr.misalign.toNat) else 0 := by
    intro x
    have hwrite : phdr.misalign.toNat +
        (file.pread phdr.offset.toNat phdr.filesz.toNat).length ≤ 2 ^ 64 := by
      simp only [psize] at hmis
      omega
    rw [Object.write, Object.byte_store _ hwrite, getD_pread hlength, hlength, byte_new]
    by_cases hx : phdr.misalign.toNat ≤ x
    · rw [if_pos hx]
      split
      · rfl
      · rw [byteAt, if_neg (by omega)]
    · rw [if_neg hx, if_neg fun h => hx h.1]
  unfold object
  dsimp only
  split
  · -- the zeroes are where the object has none but zeroes
    rename_i hzeroes
    have hsum : (phdr.misalign + phdr.filesz).toNat = phdr.misalign.toNat + phdr.filesz.toNat := by
      rw [UInt64.toNat_add, Nat.mod_eq_of_lt]
      simp only [psize] at hmis
      omega
    have hrest : (phdr.misalign + phdr.filesz).toNat +
        (List.replicate (phdr.memsz.toNat - phdr.filesz.toNat) (0 : UInt8)).length ≤ 2 ^ 64 := by
      have := UInt64.lt_iff_toNat_lt.mp hzeroes
      have := Nat.mod_le phdr.vaddr.toNat psize
      rw [hsum, List.length_replicate, misalign_toNat]
      omega
    rw [Object.write, Object.byte_store _ hrest, hfirst, hsum]
    split
    · rw [if_pos (by omega), byteAt, if_neg (by omega), List.getD_eq_getElem?_getD,
        List.getElem?_replicate]
      split <;> rfl
    · rfl
  · exact hfirst x

end Phdr

/-! ## The mapping of a segment -/

/-- The first page and the end of the mapping of a segment. -/
def Phdr.firstPage (addr : UInt64) (phdr : Phdr) : ℕ := phdr.start addr / psize

def Phdr.endp (addr : UInt64) (phdr : Phdr) : ℕ :=
  endPage (addr + phdr.vaddr - phdr.misalign).toNat (phdr.memsz + phdr.misalign).toNat

/-- The new mapping. -/
def Phdr.mapping (addr : UInt64) (phdr : Phdr) (obj : ℕ) : Mapping :=
  ⟨phdr.firstPage addr, phdr.endp addr, obj, 0, phdr.prot, flagPrivate⟩

section Geometry

variable {addr : UInt64} {phdr : Phdr}

/-- The address that `load_file` gives to `map`. -/
theorem address_toNat (phdr : Phdr) (haddr : addr.toNat % psize = 0) :
    (addr + phdr.vaddr - phdr.misalign).toNat = phdr.start addr - phdr.start addr % psize ∧
      phdr.misalign.toNat = phdr.start addr % psize := by
  have hmis := phdr.misalign_toNat
  have hstart : phdr.start addr = (addr.toNat + phdr.vaddr.toNat) % 2 ^ 64 := UInt64.toNat_add _ _
  have hlt := phdr.vaddr.toNat_lt
  have hmod : phdr.start addr % psize = phdr.vaddr.toNat % psize := by
    rw [hstart]
    simp only [psize] at haddr ⊢
    omega
  refine ⟨?_, hmis.trans hmod.symm⟩
  have hle : phdr.misalign ≤ addr + phdr.vaddr := by
    rw [UInt64.le_iff_toNat_le, hmis, ← hmod]
    exact Nat.mod_le _ _
  rw [UInt64.toNat_sub_of_le _ _ hle, hmis, hmod]
  rfl

theorem startPage_address (haddr : addr.toNat % psize = 0) :
    startPage (addr + phdr.vaddr - phdr.misalign).toNat = phdr.firstPage addr := by
  rw [startPage, (address_toNat phdr haddr).1, Phdr.firstPage]
  simp only [psize]
  omega

theorem endp_lt (addr : UInt64) (phdr : Phdr) : phdr.endp addr < 2 ^ 52 := divRoundup_lt _

theorem firstPage_lt (addr : UInt64) (phdr : Phdr) : phdr.firstPage addr < 2 ^ 52 := by
  have : phdr.start addr < 2 ^ 64 := UInt64.toNat_lt _
  rw [Phdr.firstPage]
  simp only [psize]
  omega

theorem length_toNat (haddr : addr.toNat % psize = 0) (hfits : phdr.Fits addr) :
    (phdr.memsz + phdr.misalign).toNat = phdr.memsz.toNat + phdr.start addr % psize := by
  have hmod := Nat.mod_le (phdr.start addr) psize
  unfold Phdr.Fits at hfits
  rw [UInt64.toNat_add, (address_toNat phdr haddr).2, Nat.mod_eq_of_lt]
  simp only [psize] at hfits hmod ⊢
  omega

/-- The pages of the mapping of a segment that fits. -/
theorem pageIn_iff (haddr : addr.toNat % psize = 0) (hfits : phdr.Fits addr) (p : ℕ) :
    phdr.firstPage addr ≤ p ∧ p < phdr.endp addr ↔ phdr.PageIn addr p := by
  have hadr := (address_toNat phdr haddr).1
  have hlen := length_toNat haddr hfits
  have hmod := Nat.mod_le (phdr.start addr) psize
  have hal : (addr + phdr.vaddr - phdr.misalign).toNat % psize = 0 := by
    rw [hadr]
    simp only [psize]
    omega
  have hsum : (addr + phdr.vaddr - phdr.misalign).toNat + (phdr.memsz + phdr.misalign).toNat +
      psize ≤ 2 ^ 64 := by
    rw [hadr, hlen]
    unfold Phdr.Fits at hfits
    omega
  rw [← startPage_address haddr, Phdr.endp, range_iff hal hsum]
  unfold InRange Phdr.PageIn
  rw [hadr, hlen]
  simp only [psize] at hmod ⊢
  omega

theorem firstPage_le_endp (haddr : addr.toNat % psize = 0) (hfits : phdr.Fits addr) :
    phdr.firstPage addr ≤ phdr.endp addr := by
  have hmod := Nat.mod_le (phdr.start addr) psize
  unfold Phdr.Fits at hfits
  rw [Phdr.endp, endPage, divRoundup_psize, (address_toNat phdr haddr).1, length_toNat haddr hfits,
    Phdr.firstPage]
  simp only [psize] at hfits hmod ⊢
  omega

/-- A segment that does not fit begins behind the end of every mapping if it is empty. -/
theorem firstPage_of_not_fits (hfits : ¬phdr.Fits addr) (hempty : phdr.memsz.toNat = 0) :
    phdr.firstPage addr = 2 ^ 52 - 1 := by
  have hlt : phdr.start addr < 2 ^ 64 := UInt64.toNat_lt _
  unfold Phdr.Fits at hfits
  rw [Phdr.firstPage]
  simp only [psize] at hfits ⊢
  omega

/-- What `load_file` does with a segment. -/
theorem loadSegment_ok {pm : Pagemap} {fuel : ℕ} {file : File} {s s' : Memory}
    (haddr : addr.toNat % psize = 0) (h : loadSegment pm fuel file addr phdr s = .ok s') :
    ∃ obj, s'.objs = s.objs ++ [obj] ∧
      (phdr.vaddr.toNat + phdr.memsz.toNat ≤ 2 ^ 64 → ∀ x, obj.byte x =
        if phdr.misalign.toNat ≤ x then phdr.byteAt file (x - phdr.misalign.toNat) else 0) ∧
      s'.space.tree = mapped (phdr.firstPage addr) (phdr.endp addr)
        (phdr.mapping addr s.objs.length) s.space.tree := by
  unfold loadSegment at h
  simp only at h
  split at h
  · cases h
  · rename_i hlength
    rw [ne_eq, not_not] at hlength
    split at h
    · cases h
    · split at h
      · cases h
      · split at h
        · cases h
        · cases h
        · rename_i space hrun
          cases h
          refine ⟨_, rfl, Phdr.byte_object hlength, ?_⟩
          obtain ⟨hres, -, htree⟩ := Space.eq_of_run hrun
          obtain ⟨hal, hb⟩ := SpaceOp.result_ok_iff.mp hres.symm
          have hpieces : SpaceOp.pieces (.map (addr + phdr.vaddr - phdr.misalign)
              (phdr.memsz + phdr.misalign) phdr.prot flagPrivate s.objs.length 0) =
                mapPieces (phdr.firstPage addr) (phdr.endp addr) := by
            rw [← startPage_address haddr]
            rfl
          rw [htree, SpaceOp.map_entries hal hb, SpaceOp.emplaced, startPage_address haddr, hpieces]
          rfl

end Geometry

/-! ## The segments in memory -/

/-- After some segments have been loaded, beginning with the object `first`: the mappings of a
segment's object lie in the segment with the offset of their page, and every page of a segment belongs
to it or to a later one. -/
structure Laid (file : File) (addr : UInt64) (first : ℕ) (done : List Phdr) (s : Memory) : Prop where
  loose : Loose s.space.tree
  length : s.objs.length = first + done.length
  object : ∀ i phdr, done[i]? = some phdr → ∃ obj, s.objs[first + i]? = some obj ∧ ∀ x,
    obj.byte x = if phdr.misalign.toNat ≤ x then phdr.byteAt file (x - phdr.misalign.toNat) else 0
  named : ∀ e ∈ s.space.tree, e.obj < s.objs.length
  entry : ∀ e ∈ s.space.tree, ∀ i phdr, done[i]? = some phdr → e.obj = first + i →
    ∀ p, Covers Mapping.startp Mapping.endp e p →
      phdr.PageIn addr p ∧ phdr.firstPage addr ≤ e.startp ∧
        e.offsetp = e.startp - phdr.firstPage addr
  covered : ∀ i phdr, done[i]? = some phdr → phdr.Fits addr → ∀ p, phdr.PageIn addr p →
    ∃ e ∈ s.space.tree, Covers Mapping.startp Mapping.endp e p ∧ first + i ≤ e.obj

namespace Laid

variable {file : File} {addr : UInt64} {first : ℕ} {done : List Phdr} {s s' : Memory} {phdr : Phdr}

theorem init (hloose : Loose s.space.tree) (hnamed : ∀ e ∈ s.space.tree, e.obj < s.objs.length) :
    Laid file addr s.objs.length [] s :=
  ⟨hloose, rfl, nofun, hnamed, fun _ _ _ _ hi => by simp at hi, nofun⟩

/-- The rest of a mapping behind a segment keeps the offset of its pages, unless it is shifted. -/
theorem not_shifted (h : Laid file addr first done s) (haddr : addr.toNat % psize = 0)
    (hfits : phdr.Fits addr) (happart : ∀ seg ∈ done, seg.memsz.toNat ≠ 0 → phdr.memsz.toNat ≠ 0 →
      seg.start addr + seg.memsz.toNat ≤ phdr.start addr ∨
        phdr.start addr + phdr.memsz.toNat ≤ seg.start addr)
    (hshift : ∀ seg ∈ done, ¬seg.Shifted addr phdr) {e : Mapping} (he : e ∈ s.space.tree) {i : ℕ}
    {seg : Phdr} (hi : done[i]? = some seg) (hobj : e.obj = first + i)
    (hlo : phdr.firstPage addr < e.startp) (hmid : e.startp < phdr.endp addr) :
    e.endp ≤ phdr.endp addr := by
  by_contra hhi
  rw [not_le] at hhi
  have hseg := List.mem_of_getElem? hi
  have hstart : Covers Mapping.startp Mapping.endp e e.startp := ⟨le_rfl, hmid.trans hhi⟩
  have hend : Covers Mapping.startp Mapping.endp e (phdr.endp addr) := ⟨hmid.le, hhi⟩
  obtain ⟨-, hfirst, -⟩ := h.entry e he i seg hi hobj _ hstart
  obtain ⟨hpage, -, -⟩ := h.entry e he i seg hi hobj _ hend
  have hin := (pageIn_iff haddr hfits e.startp).mp ⟨hlo.le, hmid⟩
  have hout : ¬phdr.PageIn addr (phdr.endp addr) := fun hin =>
    absurd ((pageIn_iff haddr hfits _).mpr hin).2 (lt_irrefl _)
  have hlast := (pageIn_iff haddr hfits (phdr.endp addr - 1)).mp ⟨by omega, by omega⟩
  -- the two segments meet in the first page of the earlier one
  have hpage₀ : seg.start addr / psize = e.startp := by
    have hreal := happart seg hseg
    unfold Phdr.PageIn Phdr.firstPage at *
    simp only [psize] at *
    omega
  refine hshift seg hseg ⟨?_, hpage₀ ▸ hin, _, hpage, hout⟩
  rw [hpage₀]
  exact hlo

/-- The part of a mapping that is kept behind a new one has the right offset. -/
theorem entry_partAt (h : Laid file addr first done s) (haddr : addr.toNat % psize = 0)
    (hreal : phdr.Fits addr ∨ phdr.memsz.toNat = 0)
    (happart : ∀ seg ∈ done, seg.memsz.toNat ≠ 0 → phdr.memsz.toNat ≠ 0 →
      seg.start addr + seg.memsz.toNat ≤ phdr.start addr ∨
        phdr.start addr + phdr.memsz.toNat ≤ seg.start addr)
    (hshift : ∀ seg ∈ done, ¬seg.Shifted addr phdr) {e : Mapping} (he : e ∈ s.space.tree) {i p : ℕ}
    {seg : Phdr} (hi : done[i]? = some seg) (hobj : e.obj = first + i)
    (hp : Covers Mapping.startp Mapping.endp e p)
    (hout : ¬(phdr.firstPage addr ≤ p ∧ p < phdr.endp addr)) :
    seg.firstPage addr ≤ (e.partAt (phdr.firstPage addr) (phdr.endp addr) p).startp ∧
      (e.partAt (phdr.firstPage addr) (phdr.endp addr) p).offsetp =
        (e.partAt (phdr.firstPage addr) (phdr.endp addr) p).startp - seg.firstPage addr := by
  obtain ⟨-, hfirst, hoff⟩ := h.entry e he i seg hi hobj p hp
  unfold Mapping.partAt
  split
  · rename_i hover
    obtain ⟨hlo, hhi⟩ := overlaps_iff.mp hover
    have hfits : phdr.Fits addr := by
      by_contra hnot
      have hlast := firstPage_of_not_fits hnot (hreal.resolve_left hnot)
      have := h.loose.bounded e he
      omega
    split
    · exact ⟨hfirst, hoff⟩
    · -- the mapping goes on behind the new one, so it does not begin inside it
      have hbegin : e.startp ≤ phdr.firstPage addr := by
        by_contra hlt
        have := h.not_shifted haddr hfits happart hshift he hi hobj (by omega) hhi
        have := hp.2
        omega
      refine ⟨hfirst.trans hhi.le, ?_⟩
      have hend := endp_lt addr phdr
      have hle := firstPage_le_endp haddr hfits
      dsimp only
      omega
  · exact ⟨hfirst, hoff⟩

theorem getElem?_append_singleton {i : ℕ} {seg : Phdr} (hi : (done ++ [phdr])[i]? = some seg) :
    done[i]? = some seg ∨ i = done.length ∧ seg = phdr := by
  rw [List.getElem?_append] at hi
  split at hi
  · exact Or.inl hi
  · obtain hlt | heq := Nat.lt_or_ge done.length i
    · rw [List.getElem?_eq_none (by simp; omega)] at hi
      cases hi
    · obtain rfl : i = done.length := by omega
      rw [Nat.sub_self] at hi
      exact Or.inr ⟨rfl, (Option.some.inj hi).symm⟩

theorem lt_of_getElem? {i : ℕ} {seg : Phdr} (hi : done[i]? = some seg) : i < done.length := by
  obtain ⟨hlt, -⟩ := List.getElem?_eq_some_iff.mp hi
  exact hlt

/-- The objects after one more segment. -/
theorem object_append (h : Laid file addr first done s) {obj : Object}
    (hobj : ∀ x, obj.byte x = if phdr.misalign.toNat ≤ x then
      phdr.byteAt file (x - phdr.misalign.toNat) else 0) :
    ∀ i seg, (done ++ [phdr])[i]? = some seg → ∃ o, (s.objs ++ [obj])[first + i]? = some o ∧
      ∀ x, o.byte x = if seg.misalign.toNat ≤ x then seg.byteAt file (x - seg.misalign.toNat)
        else 0 := by
  intro i seg hi
  rcases getElem?_append_singleton hi with hi | ⟨rfl, rfl⟩
  · obtain ⟨o, ho, hbyte⟩ := h.object i seg hi
    have hlt : first + i < s.objs.length := by
      have := lt_of_getElem? hi
      rw [h.length]
      omega
    exact ⟨o, (List.getElem?_append_left hlt).trans ho, hbyte⟩
  · refine ⟨obj, ?_, hobj⟩
    rw [← h.length, List.getElem?_append_right le_rfl, Nat.sub_self]
    rfl

/-- A segment is laid over the ones before it. -/
theorem step (h : Laid file addr first done s) (haddr : addr.toNat % psize = 0)
    (hrange : phdr.vaddr.toNat + phdr.memsz.toNat ≤ 2 ^ 64)
    (hreal : phdr.Fits addr ∨ phdr.memsz.toNat = 0)
    (happart : ∀ seg ∈ done, seg.memsz.toNat ≠ 0 → phdr.memsz.toNat ≠ 0 →
      seg.start addr + seg.memsz.toNat ≤ phdr.start addr ∨
        phdr.start addr + phdr.memsz.toNat ≤ seg.start addr)
    (hshift : ∀ seg ∈ done, ¬seg.Shifted addr phdr) {pm : Pagemap} {fuel : ℕ}
    (hload : loadSegment pm fuel file addr phdr s = .ok s') :
    Laid file addr first (done ++ [phdr]) s' := by
  obtain ⟨obj, hobjs, hbyte, htree⟩ := loadSegment_ok haddr hload
  have hle : phdr.firstPage addr ≤ phdr.endp addr ∨ phdr.firstPage addr = 2 ^ 52 - 1 := by
    by_cases hfits : phdr.Fits addr
    · exact Or.inl (firstPage_le_endp haddr hfits)
    · exact Or.inr (firstPage_of_not_fits hfits (hreal.resolve_left hfits))
  have hmem := fun x p => h.loose.mem_mapped (x := x) (p := p)
    (m := phdr.mapping addr s.objs.length) hle (endp_lt addr phdr) rfl rfl
  have hlength : s'.objs.length = s.objs.length + 1 := by rw [hobjs, List.length_append]; rfl
  refine ⟨?_, ?_, ?_, fun x hx => ?_, fun x hx i seg hi hobj p hp => ?_,
    fun i seg hi hfits p hp => ?_⟩
  · rw [htree]
    exact h.loose.mapped hle (endp_lt addr phdr) rfl rfl
  · rw [hlength, h.length, List.length_append]
    rfl
  · rw [hobjs]
    exact h.object_append (hbyte hrange)
  · rw [hlength]
    rcases obj_of_mem_mapped (htree ▸ hx) with hx | ⟨e, he, hx⟩
    · rw [hx]
      exact Nat.lt_succ_self _
    · rw [hx]
      exact (h.named e he).trans (Nat.lt_succ_self _)
  · rcases (hmem x p).mp ⟨htree ▸ hx, hp⟩ with ⟨rfl, hin⟩ | ⟨hout, e, he, hpe, rfl⟩
    · -- the new mapping
      have hlast : i = done.length := by
        have : s.objs.length = first + i := hobj
        rw [h.length] at this
        omega
      obtain ⟨-, rfl⟩ := (getElem?_append_singleton hi).resolve_left fun hi =>
        absurd (lt_of_getElem? hi) hlast.ge.not_gt
      have hfits : seg.Fits addr := by
        by_contra hnot
        have := firstPage_of_not_fits hnot (hreal.resolve_left hnot)
        have := endp_lt addr seg
        omega
      refine ⟨(pageIn_iff haddr hfits p).mp hin, le_rfl, ?_⟩
      exact (Nat.sub_self _).symm
    · -- a part of one of the others
      rw [Mapping.obj_partAt] at hobj
      have hold := h.named e he
      rw [h.length] at hold
      have hi := (getElem?_append_singleton hi).resolve_right fun hlast => by omega
      refine ⟨(h.entry e he i seg hi hobj p hpe).1, ?_⟩
      exact h.entry_partAt haddr hreal happart hshift he hi hobj hpe hout
  · have hnew : ∀ j ≤ done.length, phdr.firstPage addr ≤ p ∧ p < phdr.endp addr →
        ∃ e ∈ s'.space.tree, Covers Mapping.startp Mapping.endp e p ∧ first + j ≤ e.obj := by
      intro j hj hin
      obtain ⟨hm, hcov⟩ := (hmem (phdr.mapping addr s.objs.length) p).mpr (Or.inl ⟨rfl, hin⟩)
      refine ⟨_, htree ▸ hm, hcov, ?_⟩
      show first + j ≤ s.objs.length
      rw [h.length]
      omega
    rcases getElem?_append_singleton hi with hi | ⟨rfl, rfl⟩
    · by_cases hin : phdr.firstPage addr ≤ p ∧ p < phdr.endp addr
      · exact hnew i (lt_of_getElem? hi).le hin
      · obtain ⟨e, he, hpe, hobj⟩ := h.covered i seg hi hfits p hp
        obtain ⟨hm, hcov⟩ := (hmem _ p).mpr (Or.inr ⟨hin, e, he, hpe, rfl⟩)
        exact ⟨_, htree ▸ hm, hcov, hobj.trans_eq e.obj_partAt.symm⟩
    · exact hnew _ le_rfl ((pageIn_iff haddr hfits p).mpr hp)

/-- A byte, read through a mapping of the object of a segment. -/
theorem read_of_entry (h : Laid file addr first done s) (haddr : addr.toNat % psize = 0)
    {e : Mapping} (he : e ∈ s.space.tree) {i b : ℕ} {seg : Phdr} (hi : done[i]? = some seg)
    (hobj : e.obj = first + i) (hp : Covers Mapping.startp Mapping.endp e (b / psize)) :
    s.read b = some (if seg.start addr ≤ b then seg.byteAt file (b - seg.start addr) else 0) := by
  obtain ⟨-, hfirst, hoff⟩ := h.entry e he i seg hi hobj _ hp
  obtain ⟨obj, hget, hbyte⟩ := h.object i seg hi
  have hmis := (address_toNat seg haddr).2
  have hidx : (e.cell (b / psize)).idx = b / psize - seg.firstPage addr := by
    have hlt := h.loose.bounded e he
    obtain ⟨hp, hp'⟩ := hp
    rw [Mapping.cell, hoff]
    dsimp only
    omega
  have hx : (e.cell (b / psize)).idx * psize + b % psize = b - seg.firstPage addr * psize := by
    rw [hidx, Nat.sub_mul]
    have := Nat.div_add_mod' b psize
    have := Nat.mul_le_mul_right psize (hfirst.trans hp.1)
    omega
  have hstart := Nat.div_add_mod' (seg.start addr) psize
  have hbase : seg.firstPage addr * psize ≤ b :=
    (Nat.mul_le_mul_right psize (hfirst.trans hp.1)).trans (Nat.div_mul_le_self b psize)
  rw [← Phdr.firstPage] at hstart
  rw [Memory.read, h.loose.view_eq he hp, Option.bind_some]
  show (s.objs[e.obj]?.map _) = _
  rw [hobj, hget, Option.map_some, hx, hbyte, hmis]
  by_cases hle : seg.start addr ≤ b
  · rw [if_pos hle, if_pos (by omega)]
    congr 2
    omega
  · rw [if_neg hle, if_neg (by omega)]

/-- A byte of a segment is the last one written to its page: zero if that is a later segment. -/
theorem read_eq (h : Laid file addr first done s) (haddr : addr.toNat % psize = 0)
    (hfilesz : ∀ seg ∈ done, seg.filesz ≤ seg.memsz)
    (happart : done.Pairwise fun seg later => seg.memsz.toNat ≠ 0 → later.memsz.toNat ≠ 0 →
      seg.start addr + seg.memsz.toNat ≤ later.start addr ∨
        later.start addr + later.memsz.toNat ≤ seg.start addr)
    (hreal : ∀ seg ∈ done, seg.Fits addr ∨ seg.memsz.toNat = 0) {i k : ℕ} {seg : Phdr}
    (hi : done[i]? = some seg) (hk : k < seg.memsz.toNat) :
    (∀ j later, i < j → done[j]? = some later →
      ¬later.PageIn addr ((seg.start addr + k) / psize)) ∧
        s.read (seg.start addr + k) = some (seg.byteAt file k) ∨
    (∃ j later, i < j ∧ done[j]? = some later ∧
      later.PageIn addr ((seg.start addr + k) / psize)) ∧
        s.read (seg.start addr + k) = some 0 := by
  have hfits : seg.Fits addr := (hreal seg (List.mem_of_getElem? hi)).resolve_right (by omega)
  have hpage : seg.PageIn addr ((seg.start addr + k) / psize) := by
    refine ⟨Nat.div_le_div_right (Nat.le_add_right _ _), ?_⟩
    exact lt_of_le_of_lt (Nat.div_mul_le_self _ _) (by omega)
  -- the segment that has the page, and what is read there
  have howner : ∀ e ∈ s.space.tree,
      Covers Mapping.startp Mapping.endp e ((seg.start addr + k) / psize) → first + i ≤ e.obj →
        e.obj = first + i ∧ s.read (seg.start addr + k) = some (seg.byteAt file k) ∨
        (∃ j later, i < j ∧ done[j]? = some later ∧
          later.PageIn addr ((seg.start addr + k) / psize)) ∧
            s.read (seg.start addr + k) = some 0 := by
    intro e he hp hobj
    rcases hobj.eq_or_lt with hobj | hobj
    · refine Or.inl ⟨hobj.symm, ?_⟩
      rw [h.read_of_entry haddr he hi hobj.symm hp, if_pos (Nat.le_add_right _ _),
        Nat.add_sub_cancel_left]
    · have hlt := h.named e he
      rw [h.length] at hlt
      obtain ⟨later, hj⟩ : ∃ later, done[e.obj - first]? = some later :=
        ⟨_, List.getElem?_eq_getElem (by omega)⟩
      have heq : e.obj = first + (e.obj - first) := by omega
      refine Or.inr ⟨⟨_, later, by omega, hj, (h.entry e he _ later hj heq _ hp).1⟩, ?_⟩
      rw [h.read_of_entry haddr he hj heq hp]
      split
      · -- behind the bytes of the later segment
        rename_i hle
        have hsz := UInt64.le_iff_toNat_le.mp (hfilesz later (List.mem_of_getElem? hj))
        obtain ⟨hilt, hieq⟩ := List.getElem?_eq_some_iff.mp hi
        obtain ⟨hjlt, hjeq⟩ := List.getElem?_eq_some_iff.mp hj
        have hap := List.pairwise_iff_getElem.mp happart i (e.obj - first) hilt hjlt (by omega)
        rw [hieq, hjeq] at hap
        rw [Phdr.byteAt, if_neg]
        omega
      · rfl
  by_cases hlater : ∃ j later, i < j ∧ done[j]? = some later ∧
      later.PageIn addr ((seg.start addr + k) / psize)
  · obtain ⟨j, later, hij, hj, hin⟩ := hlater
    have hlfits : later.Fits addr := by
      -- an empty segment that does not fit is on the last page
      by_contra hnot
      have hlast := firstPage_of_not_fits hnot
        ((hreal later (List.mem_of_getElem? hj)).resolve_left hnot)
      have hge : later.firstPage addr ≤ (seg.start addr + k) / psize := hin.1
      unfold Phdr.Fits at hfits
      simp only [psize] at hge hfits
      omega
    obtain ⟨e, he, hp, hobj⟩ := h.covered j later hj hlfits _ hin
    rcases howner e he hp (by omega) with ⟨hobj', -⟩ | hzero
    · omega
    · exact Or.inr hzero
  · obtain ⟨e, he, hp, hobj⟩ := h.covered i seg hi hfits _ hpage
    rcases howner e he hp hobj with ⟨-, hread⟩ | ⟨hlater', -⟩
    · exact Or.inl ⟨fun j later hij hj hin => hlater ⟨j, later, hij, hj, hin⟩, hread⟩
    · exact absurd hlater' hlater

end Laid

/-! ## Loading a file -/

section LoadFile

variable {F : Type*} {resolve : List UInt8 → Option F} {pm : Pagemap} {fuel : ℕ} {file : File}
  {addr : UInt64}

/-- What a header does to the memory. -/
theorem loadHeader_ok {phdr : Phdr} {s s' : Progress F}
    (h : loadHeader resolve pm fuel file addr phdr s = .ok (some s')) :
    phdr.type = ptLoad ∧ loadSegment pm fuel file addr phdr s.memory = .ok s'.memory ∨
      phdr.type ≠ ptLoad ∧ s'.memory = s.memory := by
  unfold loadHeader at h
  split at h
  · rename_i hload
    split at h
    · cases h
    · rename_i memory hseg
      cases h
      exact Or.inl ⟨hload, hseg⟩
  · rename_i hload
    refine Or.inr ⟨hload, ?_⟩
    split at h
    · cases h
      rfl
    · split at h
      · dsimp only at h
        split at h
        · cases h
        · split at h
          · cases h
          · cases h
            rfl
      · cases h
        rfl

/-- The loop loads the segments in their order and leaves the memory as it is otherwise. -/
theorem loadHeaders_induct {ehdr : Ehdr} {all : List Phdr} {P : List Phdr → Memory → Prop}
    (hstep : ∀ done phdr s s', done ++ [phdr] <+: all → P done s →
      loadSegment pm fuel file addr phdr s = .ok s' → P (done ++ [phdr]) s')
    (is : List ℕ) (s s' : Progress F) (done : List Phdr)
    (hall : done ++ is.filterMap (fun i =>
      (file.phdr ehdr i).filter fun phdr => phdr.type = ptLoad) = all)
    (hrun : loadHeaders resolve pm fuel file addr ehdr is s = .ok (some s'))
    (hP : P done s.memory) : P all s'.memory := by
  induction is generalizing s done with
  | nil =>
      rw [List.filterMap_nil, List.append_nil] at hall
      cases hrun
      exact hall ▸ hP
  | cons i is ih =>
      rw [loadHeaders] at hrun
      split at hrun
      · cases hrun
      · rename_i phdr hphdr
        rw [List.filterMap_cons, hphdr, Option.filter_some] at hall
        split at hrun
        · cases hrun
        · cases hrun
        · rename_i s₁ hheader
          rcases loadHeader_ok hheader with ⟨hload, hseg⟩ | ⟨hload, hmem⟩
          · rw [if_pos (by simpa using hload)] at hall
            dsimp only at hall
            rw [List.append_cons] at hall
            have hpre : done ++ [phdr] <+: all := hall ▸ List.prefix_append _ _
            exact ih s₁ (done ++ [phdr]) hall hrun (hstep done phdr _ _ hpre hP hseg)
          · rw [if_neg (by simpa using hload)] at hall
            exact ih s₁ done hall hrun (hmem ▸ hP)

/-- `loadHeaders_induct` over all segments of a file. -/
theorem loadFile_induct {P : List Phdr → Memory → Prop} {memory : Memory} {s' : Progress F}
    {base : UInt64} {ehdr : Ehdr} (hehdr : file.ehdr = some ehdr)
    (hstep : ∀ done phdr s s', done ++ [phdr] <+: file.segments → P done s →
      loadSegment pm fuel file (loadAddr base ehdr) phdr s = .ok s' → P (done ++ [phdr]) s')
    (hrun : loadFile resolve pm fuel file base memory = .ok (some s')) (hP : P [] memory) :
    P file.segments s'.memory := by
  rw [loadFile, hehdr] at hrun
  refine loadHeaders_induct hstep (List.range ehdr.phnum) _ s' [] ?_ hrun hP
  rw [File.segments, hehdr, List.nil_append]

/-- The last page of the addresses is never mapped. -/
theorem read_last_page {s : Memory} (h : ∀ e ∈ s.space.tree, e.endp < 2 ^ 52) {b : ℕ}
    (hb : b / psize = 2 ^ 52 - 1) : s.read b = none := by
  rw [Memory.read, view_eq_none_of_forall, Option.bind_none]
  intro e he hp
  have := h e he
  have := hp.2
  omega

/-- A program that reads its bytes has no segment in the last page. -/
theorem Memory.Reads.fits {s : Memory} (hreads : s.Reads file addr)
    (h : ∀ e ∈ s.space.tree, e.endp < 2 ^ 52) (phdr : Phdr) (hphdr : phdr ∈ file.segments)
    (hreal : phdr.memsz.toNat ≠ 0) : phdr.Fits addr := by
  by_contra hnot
  have hlt : phdr.start addr < 2 ^ 64 := UInt64.toNat_lt _
  unfold Phdr.Fits at hnot
  -- the first of its bytes in the last page
  have hk : 2 ^ 64 - psize - phdr.start addr < phdr.memsz.toNat := by
    simp only [psize] at hnot ⊢
    omega
  have hread := hreads phdr hphdr _ hk
  rw [read_last_page h] at hread
  · cases hread
  · simp only [psize]
    omega

/-- Ranges of bytes without a common byte have none at another base either. -/
theorem Phdr.Apart.start {phdr later : Phdr} (h : phdr.Apart later)
    (hphdr : phdr.vaddr.toNat + phdr.memsz.toNat ≤ 2 ^ 64)
    (hlater : later.vaddr.toNat + later.memsz.toNat ≤ 2 ^ 64)
    (hreal : phdr.memsz.toNat ≠ 0) (hlreal : later.memsz.toNat ≠ 0) :
    phdr.start addr + phdr.memsz.toNat ≤ later.start addr ∨
      later.start addr + later.memsz.toNat ≤ phdr.start addr := by
  have hp : phdr.start addr = (addr.toNat + phdr.vaddr.toNat) % 2 ^ 64 := UInt64.toNat_add _ _
  have hl : later.start addr = (addr.toNat + later.vaddr.toNat) % 2 ^ 64 := UInt64.toNat_add _ _
  have haddr := addr.toNat_lt
  -- the first byte of either one is not in the other
  have hfirst := h phdr.vaddr.toNat
  have hfirst' := h later.vaddr.toNat
  unfold Phdr.ByteIn at hfirst hfirst'
  omega

variable {base : UInt64} {ehdr : Ehdr} {memory : Memory} {s' : Progress F}

theorem loadAddr_aligned (hbase : base.toNat % psize = 0) (ehdr : Ehdr) :
    (loadAddr base ehdr).toNat % psize = 0 := by
  unfold loadAddr
  split
  · rfl
  · exact hbase

/-- The mappings after a load, whatever the segments are. -/
theorem bounded_of_loadFile (hbase : base.toNat % psize = 0) (hehdr : file.ehdr = some ehdr)
    (hbounded : ∀ e ∈ memory.space.tree, e.endp < 2 ^ 52)
    (hrun : loadFile resolve pm fuel file base memory = .ok (some s')) :
    ∀ e ∈ s'.memory.space.tree, e.endp < 2 ^ 52 := by
  refine loadFile_induct (P := fun _ s => ∀ e ∈ s.space.tree, e.endp < 2 ^ 52) hehdr ?_ hrun
    hbounded
  intro done phdr s s' _ hbounded hload e he
  obtain ⟨obj, -, -, htree⟩ := loadSegment_ok (loadAddr_aligned hbase ehdr) hload
  rw [htree] at he
  exact endp_lt_of_mem_mapped hbounded (firstPage_lt _ phdr) (endp_lt _ phdr) he

/-- The segments after a load in which all of them fit and none is shifted. -/
theorem laid_of_loadFile (hbase : base.toNat % psize = 0) (hehdr : file.ehdr = some ehdr)
    (hrange : ∀ seg ∈ file.segments, seg.vaddr.toNat + seg.memsz.toNat ≤ 2 ^ 64)
    (happart : file.segments.Pairwise fun seg later => seg.memsz.toNat ≠ 0 →
      later.memsz.toNat ≠ 0 →
        seg.start (loadAddr base ehdr) + seg.memsz.toNat ≤ later.start (loadAddr base ehdr) ∨
        later.start (loadAddr base ehdr) + later.memsz.toNat ≤ seg.start (loadAddr base ehdr))
    (hreal : ∀ seg ∈ file.segments, seg.Fits (loadAddr base ehdr) ∨ seg.memsz.toNat = 0)
    (hshift : file.segments.Pairwise fun seg later => ¬seg.Shifted (loadAddr base ehdr) later)
    (hloose : Loose memory.space.tree)
    (hnamed : ∀ e ∈ memory.space.tree, e.obj < memory.objs.length)
    (hrun : loadFile resolve pm fuel file base memory = .ok (some s')) :
    Laid file (loadAddr base ehdr) memory.objs.length file.segments s'.memory := by
  refine loadFile_induct (P := Laid file (loadAddr base ehdr) memory.objs.length) hehdr ?_ hrun
    (Laid.init hloose hnamed)
  intro done phdr s s' hpre hlaid hload
  have hmem : phdr ∈ file.segments :=
    hpre.subset (List.mem_append_right _ (List.mem_singleton_self _))
  -- a pair of an earlier segment and this one
  have hpair : ∀ {R : Phdr → Phdr → Prop}, file.segments.Pairwise R → ∀ seg ∈ done, R seg phdr :=
    fun h seg hseg => (List.pairwise_append.mp (h.sublist hpre.sublist)).2.2 seg hseg phdr
      (List.mem_singleton_self _)
  exact hlaid.step (loadAddr_aligned hbase ehdr) (hrange phdr hmem) (hreal phdr hmem)
    (hpair happart) (hpair hshift) hload

/-- **Loading a program.** Every byte of every segment is read as the file has it, or as zero, if and
only if no segment reaches into the last page of the addresses, and the bytes of a segment on the pages
of a later one are zero; unless a later segment shifts the pages of an earlier one. -/
theorem load_file_iff (hbase : base.toNat % psize = 0) (hehdr : file.ehdr = some ehdr)
    (_hidentify : identify file = some true) (hsep : file.Separate)
    (hloose : Loose memory.space.tree)
    (hnamed : ∀ e ∈ memory.space.tree, e.obj < memory.objs.length)
    (hshift : file.segments.Pairwise fun seg later => ¬seg.Shifted (loadAddr base ehdr) later)
    (hrun : loadFile resolve pm fuel file base memory = .ok (some s')) :
    s'.memory.Reads file (loadAddr base ehdr) ↔
      (∀ phdr ∈ file.segments, phdr.memsz.toNat ≠ 0 → phdr.Fits (loadAddr base ehdr)) ∧
        file.segments.Pairwise (Phdr.Blank file (loadAddr base ehdr)) := by
  have haddr := loadAddr_aligned hbase ehdr
  have happart : file.segments.Pairwise fun seg later => seg.memsz.toNat ≠ 0 →
      later.memsz.toNat ≠ 0 →
        seg.start (loadAddr base ehdr) + seg.memsz.toNat ≤ later.start (loadAddr base ehdr) ∨
        later.start (loadAddr base ehdr) + later.memsz.toNat ≤ seg.start (loadAddr base ehdr) :=
    hsep.apart.imp_of_mem fun {a b} ha hb hap hra hrb =>
      hap.start (hsep.range a ha) (hsep.range b hb) hra hrb
  have hlaid : (∀ phdr ∈ file.segments, phdr.memsz.toNat ≠ 0 → phdr.Fits (loadAddr base ehdr)) →
      (∀ seg ∈ file.segments, seg.Fits (loadAddr base ehdr) ∨ seg.memsz.toNat = 0) ∧
        Laid file (loadAddr base ehdr) memory.objs.length file.segments s'.memory := fun hfits =>
    have hreal := fun seg hseg => or_iff_not_imp_right.mpr (hfits seg hseg)
    ⟨hreal, laid_of_loadFile hbase hehdr hsep.range happart hreal hshift hloose hnamed hrun⟩
  have hwrap : ∀ phdr : Phdr, phdr.Fits (loadAddr base ehdr) → ∀ k < phdr.memsz.toNat,
      (phdr.start (loadAddr base ehdr) + k) % 2 ^ 64 = phdr.start (loadAddr base ehdr) + k := by
    intro phdr hfits k hk
    unfold Phdr.Fits at hfits
    exact Nat.mod_eq_of_lt (by omega)
  constructor
  · intro hreads
    have hfits := hreads.fits (bounded_of_loadFile hbase hehdr hloose.bounded hrun)
    refine ⟨hfits, List.pairwise_iff_getElem.mpr fun i j hi hj hij k hk hin => ?_⟩
    have hmem := List.getElem_mem hi
    have hbyte := hreads _ hmem k hk
    rw [hwrap _ (hfits _ hmem (by omega)) k hk] at hbyte
    obtain ⟨hreal, hlaid⟩ := hlaid hfits
    rcases hlaid.read_eq haddr hsep.filesz happart hreal (List.getElem?_eq_getElem hi) hk with
      ⟨hnone, -⟩ | ⟨-, hzero⟩
    · exact absurd hin (hnone j _ hij (List.getElem?_eq_getElem hj))
    · exact Option.some.inj (hbyte.symm.trans hzero)
  · rintro ⟨hfits, hblank⟩ phdr hphdr k hk
    rw [hwrap _ (hfits _ hphdr (by omega)) k hk]
    obtain ⟨i, hi⟩ := List.getElem?_of_mem hphdr
    obtain ⟨hreal, hlaid⟩ := hlaid hfits
    rcases hlaid.read_eq haddr hsep.filesz happart hreal hi hk with
      ⟨-, hbyte⟩ | ⟨⟨j, later, hij, hj, hin⟩, hzero⟩
    · exact hbyte
    · obtain ⟨hilt, hieq⟩ := List.getElem?_eq_some_iff.mp hi
      obtain ⟨hjlt, hjeq⟩ := List.getElem?_eq_some_iff.mp hj
      have hb := List.pairwise_iff_getElem.mp hblank i j hilt hjlt hij
      rw [hieq, hjeq] at hb
      rw [hzero, hb k hk hin]

end LoadFile

/-! ## Two programs -/

/-- The object that is made from a file. -/
def Phdr.image (file : File) (phdr : Phdr) : Object :=
  (phdr.object (file.pread phdr.offset.toNat phdr.filesz.toNat)).1

/-- A segment is loaded when its bytes are there and `map` succeeds. -/
theorem returns_loadSegment {pm : Pagemap} (file : File) (addr : UInt64) (phdr : Phdr) (s : Memory)
    {space : Space} (hlength : (file.pread phdr.offset.toNat phdr.filesz.toNat).length =
      phdr.filesz.toNat)
    (hcall : s.space.Call pm (.map (addr + phdr.vaddr - phdr.misalign) (phdr.memsz + phdr.misalign)
      phdr.prot flagPrivate s.objs.length 0) (.ok ()) space) :
    Returns (fun fuel => loadSegment pm fuel file addr phdr s)
      ⟨space, s.objs ++ [phdr.image file]⟩ := by
  have hwrite : ∀ (obj : Object) (offset : ℕ) (buffer : List UInt8),
      (obj.write (fun _ => true) offset buffer).2 = buffer.length := fun _ _ _ =>
    Object.store_progress ..
  have hwritten : ∀ buffer : List UInt8, (phdr.object buffer).2.1 = buffer.length := by
    intro buffer
    unfold Phdr.object
    dsimp only
    split <;> exact hwrite _ _ _
  have hzeroed : ∀ buffer : List UInt8,
      (phdr.object buffer).2.2 = phdr.memsz.toNat - phdr.filesz.toNat := by
    intro buffer
    unfold Phdr.object
    dsimp only
    split
    · exact (hwrite _ _ _).trans List.length_replicate
    · rfl
  obtain ⟨N, hN⟩ := hcall
  refine ⟨N, fun fuel hfuel => ?_⟩
  have hrun := hN fuel hfuel
  unfold loadSegment
  dsimp only at hrun ⊢
  rw [if_neg (not_not.mpr hlength), if_neg (not_not.mpr ((hwritten _).trans hlength)),
    if_neg (not_not.mpr (hzeroed _)), hrun]
  rfl

/-- A program with four bytes of its magic number at `0x10000` and four zeroes at another address. -/
def exampleProgram (vaddr : UInt64) : File where
  data := [0x7F, 0x45, 0x4C, 0x46, 2, 1, 1] ++ encodeLE 9 0 ++ encodeLE 2 2 ++ encodeLE 2 62 ++
    encodeLE 4 1 ++ encodeLE 8 0 ++ encodeLE 8 64 ++ encodeLE 14 64 ++ encodeLE 2 56 ++
    encodeLE 2 2 ++ encodeLE 6 0 ++
    (encodeLE 4 1 ++ encodeLE 4 4 ++ encodeLE 8 0 ++ encodeLE 16 0x10000 ++ encodeLE 8 4 ++
      encodeLE 16 4) ++
    (encodeLE 4 1 ++ encodeLE 4 4 ++ encodeLE 8 8 ++ encodeLE 16 vaddr.toNat ++ encodeLE 8 4 ++
      encodeLE 16 4)
  small := by simp

def exampleEhdr : Ehdr where
  ident := [0x7F, 0x45, 0x4C, 0x46, 2, 1, 1, 0, 0, 0, 0, 0, 0, 0, 0, 0]
  type := 2
  machine := 62
  entry := 0
  phoff := 64
  phentsize := 56
  phnum := 2

def exampleSegment (vaddr : UInt64) : Phdr := ⟨ptLoad, 4, vaddr &&& 0xFFF, vaddr, 4, 4⟩

theorem prot_exampleSegment (vaddr : UInt64) : (exampleSegment vaddr).prot = 1 := by
  have hflags : (exampleSegment vaddr).flags = 4 := rfl
  rw [Phdr.prot, hflags]
  decide +revert

/-- The program is loaded once the two calls of `map` return. -/
theorem exists_loadFile (vaddr : UInt64) (tree : List Mapping)
    (hehdr : (exampleProgram vaddr).ehdr = some exampleEhdr)
    (hfirst : (exampleProgram vaddr).phdr exampleEhdr 0 = some (exampleSegment 0x10000))
    (hsecond : (exampleProgram vaddr).phdr exampleEhdr 1 = some (exampleSegment vaddr))
    (hlength : ((exampleProgram vaddr).pread (vaddr &&& 0xFFF).toNat 4).length = 4)
    (hcall : ∀ s : Space, exampleMachine.SmallWf s.pmap → s.tree = [⟨0x10, 0x11, 0, 0, 1, 2⟩] →
      ∃ s', s.Call exampleMachine (.map (0 + vaddr - (vaddr &&& 0xFFF)) (4 + (vaddr &&& 0xFFF))
        1 2 1 0) (.ok ()) s' ∧ s'.tree = tree) :
    ∃ fuel, ∃ s' : Progress Unit, loadFile (fun _ => none) exampleMachine fuel
      (exampleProgram vaddr) 0x400000 ⟨Space.empty, []⟩ = .ok (some s') ∧
      s'.memory.space.tree = tree ∧
      s'.memory.objs = [(exampleSegment 0x10000).image (exampleProgram vaddr),
        (exampleSegment vaddr).image (exampleProgram vaddr)] := by
  obtain ⟨s₁, hcall₁, hwf₁, htree₁⟩ := Space.exists_call (s := Space.empty)
    (.map 0x10000 4 1 2 0 0) (.ok ()) [⟨0x10, 0x11, 0, 0, 1, 2⟩] rfl Space.empty_smallWf
    (fun _ => rfl) (by decide +kernel) rfl (by decide +kernel)
  obtain ⟨s₂, hcall₂, htree₂⟩ := hcall s₁ hwf₁ htree₁
  have hload₁ := returns_loadSegment (exampleProgram vaddr) 0 (exampleSegment 0x10000)
    ⟨Space.empty, []⟩ rfl hcall₁
  have hload₂ := returns_loadSegment (exampleProgram vaddr) 0 (exampleSegment vaddr)
    ⟨s₁, [(exampleSegment 0x10000).image (exampleProgram vaddr)]⟩ hlength
    ((prot_exampleSegment vaddr).symm ▸ hcall₂)
  obtain ⟨N₁, hN₁⟩ := hload₁
  obtain ⟨N₂, hN₂⟩ := hload₂
  have h₁ := hN₁ (max N₁ N₂) (Nat.le_max_left _ _)
  have h₂ := hN₂ (max N₁ N₂) (Nat.le_max_right _ _)
  refine ⟨max N₁ N₂, ⟨⟨s₂, [_] ++ [_]⟩, ⟨0, 64, 56, 2⟩, none⟩, ?_, htree₂, rfl⟩
  dsimp only at h₁ h₂
  simp only [loadFile, hehdr, show loadAddr 0x400000 exampleEhdr = 0 from rfl,
    show List.range exampleEhdr.phnum = [0, 1] from rfl, loadHeaders, hfirst, hsecond, loadHeader,
    show (exampleSegment 0x10000).type = ptLoad from rfl,
    show (exampleSegment vaddr).type = ptLoad from rfl, if_true, h₁, List.nil_append, h₂]
  rfl

theorem start_exampleSegment (vaddr : UInt64) : (exampleSegment vaddr).start 0 = vaddr.toNat := by
  rw [Phdr.start, UInt64.zero_add]
  rfl

theorem separate_exampleProgram {vaddr : UInt64} (hlo : 0x10004 ≤ vaddr.toNat)
    (hhi : vaddr.toNat + 4 ≤ 2 ^ 64) (hsegments : (exampleProgram vaddr).segments =
      [exampleSegment 0x10000, exampleSegment vaddr]) : (exampleProgram vaddr).Separate := by
  have hoffset : ∀ v : UInt64, (exampleSegment v).offset.toNat % psize =
      (exampleSegment v).vaddr.toNat % psize := by
    intro v
    rw [show (exampleSegment v).offset.toNat = _ from (exampleSegment v).misalign_toNat,
      Nat.mod_mod]
  refine ⟨?_, ?_, ?_, ?_⟩
  · rw [hsegments, List.forall_mem_cons, List.forall_mem_singleton]
    exact ⟨by decide, hhi⟩
  · rw [hsegments, List.forall_mem_cons, List.forall_mem_singleton]
    exact ⟨UInt64.le_refl _, UInt64.le_refl _⟩
  · rw [hsegments, List.forall_mem_cons, List.forall_mem_singleton]
    exact ⟨hoffset _, hoffset _⟩
  · rw [hsegments, List.pairwise_pair]
    rintro b ⟨⟨-, hb⟩, hb', -⟩
    change b < 0x10000 + 4 at hb
    change vaddr.toNat ≤ b at hb'
    omega

/-- Two segments on two pages. -/
theorem load_file_two_pages : ∃ fuel, ∃ s' : Progress Unit,
    loadFile (fun _ => none) exampleMachine fuel (exampleProgram 0x11008) 0x400000
      ⟨Space.empty, []⟩ = .ok (some s') ∧ s'.memory.Reads (exampleProgram 0x11008) 0 := by
  obtain ⟨fuel, s', hrun, -, -⟩ := exists_loadFile 0x11008
    [⟨0x10, 0x11, 0, 0, 1, 2⟩, ⟨0x11, 0x12, 1, 0, 1, 2⟩] rfl rfl rfl rfl
    fun s hwf htree => by
      obtain ⟨s', hcall, -, htree'⟩ := Space.exists_call (.map 0x11000 12 1 2 1 0) (.ok ())
        [⟨0x10, 0x11, 0, 0, 1, 2⟩, ⟨0x11, 0x12, 1, 0, 1, 2⟩] htree hwf (fun _ => rfl)
        (by decide +kernel) rfl (by decide +kernel)
      exact ⟨s', hcall, htree'⟩
  have hsegments : (exampleProgram 0x11008).segments =
    [exampleSegment 0x10000, exampleSegment 0x11008] := rfl
  have hlo : (exampleSegment 0x10000).start 0 = 0x10000 := start_exampleSegment _
  have hhi : (exampleSegment 0x11008).start 0 = 0x11008 := start_exampleSegment _
  refine ⟨fuel, s', hrun, (load_file_iff rfl (show _ = some exampleEhdr from rfl) (by decide +kernel)
    (separate_exampleProgram (by decide) (by decide) hsegments)
    ⟨by simp [Space.empty], by simp [Space.empty]⟩ (by simp [Space.empty]) ?_ hrun).mpr ⟨?_, ?_⟩⟩
  · rw [hsegments, List.pairwise_pair]
    rintro ⟨hlt, -⟩
    change (exampleSegment 0x11008).start 0 / psize < (exampleSegment 0x10000).start 0 / psize at hlt
    rw [hlo, hhi] at hlt
    exact absurd hlt (by decide)
  · rw [hsegments, List.forall_mem_cons, List.forall_mem_singleton]
    refine ⟨fun _ => ?_, fun _ => ?_⟩
    · change (exampleSegment 0x10000).start 0 + 4 + psize ≤ 2 ^ 64
      rw [hlo]
      decide
    · change (exampleSegment 0x11008).start 0 + 4 + psize ≤ 2 ^ 64
      rw [hhi]
      decide
  · rw [hsegments, List.pairwise_pair]
    rintro k hk ⟨hpage, -⟩
    change k < 4 at hk
    change (exampleSegment 0x11008).start 0 / psize ≤ ((exampleSegment 0x10000).start 0 + k) / psize
      at hpage
    rw [hlo, hhi] at hpage
    simp only [psize] at hpage
    omega

/-- Two segments on one page: the first byte of the program is read as zero. -/
theorem load_file_shared_page : ∃ fuel, ∃ s' : Progress Unit,
    identify (exampleProgram 0x10008) = some true ∧ (exampleProgram 0x10008).Separate ∧
    loadFile (fun _ => none) exampleMachine fuel (exampleProgram 0x10008) 0x400000
      ⟨Space.empty, []⟩ = .ok (some s') ∧ ¬s'.memory.Reads (exampleProgram 0x10008) 0 := by
  obtain ⟨fuel, s', hrun, htree, hobjs⟩ := exists_loadFile 0x10008
    [⟨0x10, 0x11, 1, 0, 1, 2⟩] rfl rfl rfl rfl fun s hwf htree => by
      obtain ⟨s', hcall, -, htree'⟩ := Space.exists_call (.map 0x10000 12 1 2 1 0) (.ok ())
        [⟨0x10, 0x11, 1, 0, 1, 2⟩] htree hwf (fun _ => rfl) (by decide +kernel) rfl
        (by decide +kernel)
      exact ⟨s', hcall, htree'⟩
  have hsegments : (exampleProgram 0x10008).segments =
    [exampleSegment 0x10000, exampleSegment 0x10008] := rfl
  refine ⟨fuel, s', by decide +kernel,
    separate_exampleProgram (by decide) (by decide) hsegments, hrun, fun hreads => ?_⟩
  have hread := hreads (exampleSegment 0x10000) (hsegments ▸ List.mem_cons_self) 0 (by decide)
  rw [start_exampleSegment] at hread
  -- the page is the one of the second segment, which begins at its eighth byte
  have hzero : s'.memory.read 0x10000 = some 0 := by
    rw [Memory.read, htree, hobjs]
    show some (((exampleSegment 0x10008).image _).byte 0) = some 0
    rw [Phdr.image, Phdr.byte_object rfl (by decide), if_neg (by decide)]
  have hbyte : (exampleSegment 0x10000).byteAt (exampleProgram 0x10008) 0 = 0x7F := rfl
  rw [show (UInt64.toNat 0x10000 + 0) % 2 ^ 64 = 0x10000 from rfl, hzero, hbyte] at hread
  exact absurd hread (by decide)

end Ilobilix.Elf
