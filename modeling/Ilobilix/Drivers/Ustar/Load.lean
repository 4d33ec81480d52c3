import Ilobilix.Drivers.Ustar.Format
import Ilobilix.Foundation.Bytes
import Ilobilix.Foundation.Fuel
import Ilobilix.Lib.Math
import Mathlib.Algebra.Order.BigOperators.Group.List
import Mathlib.Data.List.TakeWhile

/-!
# The initramfs

`ustar::load` walks over the initramfs, which is a ustar archive in memory, and hands its members to
the VFS. `load` is that walk for an arbitrary VFS. The strings and the numbers of a header are read
up to the next zero byte, wherever that is.

`Member.pass` is what the VFS should get of a member of a valid archive. The main result compares the
two: among the archives whose numbers are plain, the walk does what it should for those without
prefixes, names that fill their field, fifos and contiguous files, and for no others.
-/

namespace Ilobilix.Ustar

open Lib

/-! ## The walk -/

/-- What the walk calls. `ι` is the type of the paths that a call returns. -/
structure Vfs (σ ι : Type) where
  create : (path : List UInt8) → (mode : BitVec 32) → (dev : BitVec 64) → σ → σ × Option ι
  /-- A write to the file at a path, with the number of bytes written or an error. -/
  pwrite : ι → (offset : ℕ) → (data : List UInt8) → σ → σ × ℤ
  unlink : (path : List UInt8) → σ → σ
  link : (src target : List UInt8) → σ → σ × Option ι
  symlink : (src target : List UInt8) → σ → σ × Option ι
  setMtim : ι → ℤ → σ → σ

/-- Why the walk does not return. -/
inductive Stop where
  | panic
  | fuel
  deriving DecidableEq

/-- `ustar::types`. -/
inductive Types where
  | regular | aregular | hardlink | symlink | chardev | blockdev | directory | fifo | control
  | xhd | xgl
  deriving DecidableEq

def Types.char : Types → UInt8
  | .regular => 48
  | .aregular => 0
  | .hardlink => 49
  | .symlink => 50
  | .chardev => 51
  | .blockdev => 52
  | .directory => 53
  | .fifo => 54
  | .control => 55
  | .xhd => 120
  | .xgl => 103

/-- The type with a given character. -/
def Types.ofChar (c : UInt8) : Option Types :=
  [.regular, .aregular, .hardlink, .symlink, .chardev, .blockdev, .directory, .fifo, .control,
    .xhd, .xgl].find? fun t => t.char = c

/-- `"ustar"` with the zero byte. -/
def magic : List UInt8 := [117, 115, 116, 97, 114, 0]

/-- `"./"`, the root of the archive. -/
def root : List UInt8 := [46, 47]

def sIfreg : BitVec 32 := 0o100000
def sIfblk : BitVec 32 := 0o060000
def sIfdir : BitVec 32 := 0o040000
def sIfchr : BitVec 32 := 0o020000
def sIfifo : BitVec 32 := 0o010000

/-- `lib::oct2int` for an integer type of `w` bits; `char` is unsigned. -/
def oct2int (w : ℕ) (str : List UInt8) : BitVec w :=
  (str.takeWhile (· ≠ 0)).foldl (fun value c => value * 8 + (BitVec.ofNat w c.toNat - 48)) 0

/-- `dev::makedev`. -/
def makedev (maj min : BitVec 32) : BitVec 64 :=
  (maj.setWidth 64 &&& 0x00000FFF) <<< 8 ||| (maj.setWidth 64 &&& 0xFFFFF000) <<< 32 |||
    (min.setWidth 64 &&& 0x000000FF) ||| (min.setWidth 64 &&& 0xFFFFFF00) <<< 12

/-- What one turn of the walk reads of a header. -/
structure Entry where
  name : List UInt8
  linkname : List UInt8
  mode : BitVec 32
  size : BitVec 64
  mtim : ℤ
  dev : BitVec 64
  typeflag : UInt8

/-- The fields of the header at `current`. Each of them is a `std::string_view` of a `char *`, which
ends before the next zero byte. -/
def readHeader (mem : ℕ → UInt8) (fuel current : ℕ) : Option Entry := do
  let name ← readString mem fuel current
  let linkname ← readString mem fuel (current + 157)
  let mode ← readString mem fuel (current + 100)
  let size ← readString mem fuel (current + 124)
  let mtim ← readString mem fuel (current + 136)
  let devmajor ← readString mem fuel (current + 329)
  let devminor ← readString mem fuel (current + 337)
  return {
    name, linkname
    mode := oct2int 32 mode
    size := oct2int 64 size
    mtim := (oct2int 64 mtim).toInt
    dev := makedev ((oct2int 64 devmajor).setWidth 32) ((oct2int 64 devminor).setWidth 32)
    typeflag := mem (current + 156) }

section Walk

variable {σ ι : Type} (vfs : Vfs σ ι)

/-- The time of the new inode; a failed call is logged and leaves nothing to set. -/
def Vfs.stamp (mtim : ℤ) : σ × Option ι → σ
  | (s, none) => s
  | (s, some p) => vfs.setMtim p mtim s

/-- A new regular file with its data, which is removed again if not all of them were written. -/
def Vfs.store (path : List UInt8) (mode : BitVec 32) (data : List UInt8) (size mtim : ℤ) (s : σ) : σ :=
  match vfs.create path mode 0 s with
  | (s, none) => s
  | (s, some p) =>
      match vfs.pwrite p 0 data s with
      | (s, written) => if written ≠ size then vfs.unlink path s else vfs.setMtim p mtim s

/-- The `switch` over the type of a member. -/
def extract (e : Entry) (data : List UInt8) (s : σ) : Except Stop σ :=
  if e.name = root then .ok s
  else
    match Types.ofChar e.typeflag with
    | some .regular | some .aregular =>
        .ok (vfs.store e.name (e.mode ||| sIfreg) data e.size.toInt e.mtim s)
    | some .hardlink => .ok (vfs.stamp e.mtim (vfs.link e.name e.linkname s))
    | some .symlink => .ok (vfs.stamp e.mtim (vfs.symlink e.name e.linkname s))
    | some .chardev => .ok (vfs.stamp e.mtim (vfs.create e.name (e.mode ||| sIfchr) e.dev s))
    | some .blockdev => .ok (vfs.stamp e.mtim (vfs.create e.name (e.mode ||| sIfblk) e.dev s))
    | some .directory => .ok (vfs.stamp e.mtim (vfs.create e.name (e.mode ||| sIfdir) 0 s))
    | some .fifo => .error .panic
    -- no case for the others, so `inode` stays null
    | some .control | some .xhd | some .xgl | none => .ok s

/-- `ustar::load`, from the header at `current` on. -/
def load (mem : ℕ → UInt8) : (fuel current : ℕ) → σ → Except Stop σ
  | 0, _, _ => .error .fuel
  | fuel + 1, current, s =>
      if readBytes mem 6 (current + 257) = magic then
        match readHeader mem fuel current with
        | none => .error .fuel
        | some e =>
            extract vfs e (readBytes mem e.size.toNat (current + 512)) s >>= fun s =>
              load mem fuel ((current + 512 + alignUp e.size.toNat 512) % 2 ^ 64) s
      else .ok s

end Walk

/-! ## What the VFS should get -/

/-- The permission bits. -/
def Header.perms (h : Header) : BitVec 32 := BitVec.ofNat 32 h.mode.value &&& 0o7777

def Header.dev (h : Header) : BitVec 64 :=
  makedev (BitVec.ofNat 32 h.devmajor.value) (BitVec.ofNat 32 h.devminor.value)

/-- The directory that the archive is extracted to, which is there already. -/
def Member.IsRoot (m : Member) : Prop := m.path = root ∧ m.kind = .directory

instance (m : Member) : Decidable m.IsRoot :=
  inferInstanceAs (Decidable (m.path = root ∧ m.kind = .directory))

/-- The calls for a member: its full path, type, permission bits, data and time. -/
def Member.pass {σ ι : Type} (vfs : Vfs σ ι) (m : Member) (s : σ) : σ :=
  if m.IsRoot then s
  else
    match m.kind with
    | .regular | .aregular | .contiguous =>
        vfs.store m.path (m.perms ||| sIfreg) m.data m.data.length m.mtime.value s
    | .hardlink => vfs.stamp m.mtime.value (vfs.link m.path m.linkname.text s)
    | .symlink => vfs.stamp m.mtime.value (vfs.symlink m.path m.linkname.text s)
    | .chardev => vfs.stamp m.mtime.value (vfs.create m.path (m.perms ||| sIfchr) m.dev s)
    | .blockdev => vfs.stamp m.mtime.value (vfs.create m.path (m.perms ||| sIfblk) m.dev s)
    | .directory => vfs.stamp m.mtime.value (vfs.create m.path (m.perms ||| sIfdir) 0 s)
    | .fifo => vfs.stamp m.mtime.value (vfs.create m.path (m.perms ||| sIfifo) 0 s)

/-- With any VFS, the walk over the archive in memory passes each member once and in order. -/
def Loads (members : List Member) : Prop :=
  ∀ (σ ι : Type) (vfs : Vfs σ ι) (s : σ) (mem : ℕ → UInt8) (base : ℕ),
    base + (archive members).length ≤ 2 ^ 64 → BytesAt mem base (archive members) →
    Returns (fun fuel => load vfs mem fuel base s) (members.foldl (fun s m => m.pass vfs s) s)

/-! ## The numbers -/

theorem foldl_digits (w : ℕ) (l : List (Fin 8)) (v : ℕ) :
    (l.map Number.char).foldl (fun value c => value * 8 + (BitVec.ofNat w c.toNat - 48))
      (BitVec.ofNat w v) = BitVec.ofNat w (l.foldl (fun v d => v * 8 + d.val) v) := by
  induction l generalizing v with
  | nil => rfl
  | cons d l ih =>
      have hdigit : BitVec.ofNat w (Number.char d).toNat - 48 = BitVec.ofNat w d.val := by
        rw [Number.toNat_char, Nat.add_comm, BitVec.ofNat_add]
        exact BitVec.add_sub_cancel _ _
      rw [List.map_cons, List.foldl_cons, List.foldl_cons, hdigit, ← ih (v * 8 + d.val),
        BitVec.ofNat_add, BitVec.ofNat_mul]
      rfl

theorem oct2int_digits (w : ℕ) (l : List (Fin 8)) :
    oct2int w (l.map Number.char) = BitVec.ofNat w (l.foldl (fun v d => v * 8 + d.val) 0) := by
  have htake : (l.map Number.char).takeWhile (· ≠ 0) = l.map Number.char := by
    rw [List.takeWhile_eq_self_iff]
    intro c hc
    simpa using fun hzero : c = 0 => Number.zero_notMem_digits l (hzero ▸ hc)
  rw [oct2int, htake]
  exact foldl_digits w l 0

/-- A space behind the digits is read as one more digit, of the value `-16`. -/
theorem oct2int_space (w : ℕ) (l : List (Fin 8)) : oct2int w (l.map Number.char ++ [32]) =
    BitVec.ofNat w (l.foldl (fun v d => v * 8 + d.val) 0) * 8 + (BitVec.ofNat w 32 - 48) := by
  have htake : (l.map Number.char ++ [32]).takeWhile (· ≠ 0) = l.map Number.char ++ [32] := by
    rw [List.takeWhile_eq_self_iff]
    intro c hc
    rcases List.mem_append.mp hc with hc | hc
    · simpa using fun hzero : c = 0 => Number.zero_notMem_digits l (hzero ▸ hc)
    · simp [List.mem_singleton.mp hc]
  rw [oct2int, htake, List.foldl_append, ← foldl_digits w l 0]
  rfl

theorem Number.oct2int_eq {width w : ℕ} {n : Number width} {mem : ℕ → UInt8} {a fuel : ℕ}
    (h : BytesAt mem a n.bytes) (hn : n.Plain) (hfuel : width < fuel) :
    ∃ str, readString mem fuel a = some str ∧ oct2int w str = BitVec.ofNat w n.value := by
  obtain ⟨rest, hrest⟩ := n.bytes_of_plain hn
  rw [hrest] at h
  have hlength := n.length_eq
  refine ⟨_, (BytesAt.append_iff.1 h).1.readString_eq (Number.zero_notMem_digits _) ?_,
    oct2int_digits w n.digits⟩
  rw [List.length_map]
  omega

theorem Text.readString_eq {width : ℕ} {t : Text width} {mem : ℕ → UInt8} {a fuel : ℕ}
    (h : BytesAt mem a t.bytes) (ht : ¬ t.Full) (hfuel : width < fuel) :
    readString mem fuel a = some t.text := by
  obtain ⟨rest, hrest⟩ := t.bytes_of_not_full ht
  rw [hrest] at h
  have hlength := t.length_eq
  exact (BytesAt.append_iff.1 h).1.readString_eq t.zero_notMem (by omega)

/-! ## One header -/

/-- The numbers that the walk reads are plain, and a size stands only where there are data. -/
structure Member.Plain (m : Member) : Prop where
  mode : m.mode.Plain
  size : m.size.Plain
  mtime : m.mtime.Plain
  mode_lt : m.mode.value < 0o10000
  size_eq : ¬ m.kind.HasData → m.size.value = 0
  devmajor : m.kind.IsDevice → m.devmajor.Plain
  devminor : m.kind.IsDevice → m.devminor.Plain

/-- The name that the walk reads: without a zero byte of its own it goes on into the mode. -/
def Header.readName (h : Header) : List UInt8 :=
  if h.name.Full then h.name.text ++ h.mode.digits.map Number.char else h.name.text

/-- In the same way the name of a link goes on into the magic. -/
def Header.readLinkname (h : Header) : List UInt8 :=
  if h.linkname.Full then h.linkname.text ++ [117, 115, 116, 97, 114] else h.linkname.text

/-- What the walk reads of a plain member, up to the device number. -/
def Header.entry (h : Header) (dev : BitVec 64) : Entry where
  name := h.readName
  linkname := h.readLinkname
  mode := BitVec.ofNat 32 h.mode.value
  size := BitVec.ofNat 64 h.size.value
  mtim := h.mtime.value
  dev := dev
  typeflag := h.kind.typeflag

/-- The fields that the walk reads, in memory. -/
structure Header.Laid (h : Header) (mem : ℕ → UInt8) (a : ℕ) : Prop where
  name : BytesAt mem a (h.name.bytes ++ h.mode.bytes)
  mode : BytesAt mem (a + 100) h.mode.bytes
  size : BytesAt mem (a + 124) h.size.bytes
  mtime : BytesAt mem (a + 136) h.mtime.bytes
  typeflag : mem (a + 156) = h.kind.typeflag
  linkname : BytesAt mem (a + 157) (h.linkname.bytes ++ magicBytes)
  magic : BytesAt mem (a + 257) magicBytes
  devmajor : BytesAt mem (a + 329) h.devmajor.bytes
  devminor : BytesAt mem (a + 337) h.devminor.bytes

theorem Header.laid {h : Header} {mem : ℕ → UInt8} {a : ℕ} (hb : BytesAt mem a h.bytes) :
    h.Laid mem a := by
  obtain ⟨hbefore, hafter⟩ := BytesAt.append_iff.1 hb
  obtain ⟨-, hafter⟩ := BytesAt.append_iff.1 hafter
  obtain ⟨htypeflag, hafter⟩ := BytesAt.cons_iff.1 hafter
  rw [Header.beforeChksum, ← List.append_assoc] at hbefore
  obtain ⟨hname, hbefore⟩ := BytesAt.append_iff.1 hbefore
  obtain ⟨-, hbefore⟩ := BytesAt.append_iff.1 hbefore
  obtain ⟨-, hbefore⟩ := BytesAt.append_iff.1 hbefore
  obtain ⟨hsize, hmtime⟩ := BytesAt.append_iff.1 hbefore
  rw [← List.append_assoc] at hafter
  obtain ⟨hlinkname, hafter⟩ := BytesAt.append_iff.1 hafter
  obtain ⟨-, hafter⟩ := BytesAt.append_iff.1 hafter
  obtain ⟨-, hafter⟩ := BytesAt.append_iff.1 hafter
  obtain ⟨-, hafter⟩ := BytesAt.append_iff.1 hafter
  obtain ⟨hdevmajor, hafter⟩ := BytesAt.append_iff.1 hafter
  obtain ⟨hdevminor, -⟩ := BytesAt.append_iff.1 hafter
  simp only [List.length_append, Text.length_bytes, Number.length_bytes, Header.length_beforeChksum,
    h.version_length, Nat.add_assoc] at hsize hmtime htypeflag hlinkname hdevmajor hdevminor
  have hmode := (BytesAt.append_iff.1 hname).2
  have hmagic := (BytesAt.append_iff.1 hlinkname).2
  simp only [Text.length_bytes, Nat.add_assoc] at hmode hmagic
  exact ⟨hname, hmode, hsize, hmtime, htypeflag, hlinkname, hmagic, hdevmajor, hdevminor⟩

theorem Member.Plain.readName_eq {m : Member} (hp : m.Plain) {mem : ℕ → UInt8} {a fuel : ℕ}
    (h : m.Laid mem a) (hfuel : 108 < fuel) : readString mem fuel a = some m.readName := by
  rw [Header.readName]
  split_ifs with hfull
  · obtain ⟨rest, hrest⟩ := m.mode.bytes_of_plain hp.mode
    have hname := h.name
    have hlength := m.name.length_eq
    have hdigits := m.mode.length_eq
    rw [Text.bytes_of_full hfull, hrest, ← List.append_assoc, ← List.append_assoc] at hname
    refine (BytesAt.append_iff.1 hname).1.readString_eq ?_ ?_
    · rw [List.mem_append]
      exact not_or_intro m.name.zero_notMem (Number.zero_notMem_digits _)
    · rw [List.length_append, List.length_map]
      omega
  · exact Text.readString_eq (BytesAt.append_iff.1 h.name).1 hfull (by omega)

theorem Header.Laid.readLinkname_eq {h : Header} {mem : ℕ → UInt8} {a fuel : ℕ} (hl : h.Laid mem a)
    (hfuel : 108 < fuel) : readString mem fuel (a + 157) = some h.readLinkname := by
  rw [Header.readLinkname]
  split_ifs with hfull
  · have hlinkname := hl.linkname
    have hlength := h.linkname.length_eq
    have hmagic : magicBytes = [117, 115, 116, 97, 114] ++ [0] := rfl
    rw [Text.bytes_of_full hfull, hmagic, ← List.append_assoc] at hlinkname
    refine hlinkname.readString_eq ?_ ?_
    · rw [List.mem_append]
      exact not_or_intro h.linkname.zero_notMem (by decide)
    · simp only [List.length_append, List.length_cons, List.length_nil]
      omega
  · exact Text.readString_eq (BytesAt.append_iff.1 hl.linkname).1 hfull (by omega)

/-- Somewhere behind the header there is a zero byte, so that every string ends. -/
theorem Member.Plain.readHeader_eq {m : Member} (hp : m.Plain) {mem : ℕ → UInt8} {a b fuel : ℕ}
    (h : m.Laid mem a) (hab : a + 345 ≤ b) (hb : mem b = 0) (hfuel : b - a < fuel) :
    ∃ dev, (m.kind.IsDevice → dev = m.dev) ∧ readHeader mem fuel a = some (m.entry dev) := by
  obtain ⟨mode, hmode, hmodeEq⟩ := Number.oct2int_eq (w := 32) h.mode hp.mode (by omega : 8 < fuel)
  obtain ⟨size, hsize, hsizeEq⟩ := Number.oct2int_eq (w := 64) h.size hp.size (by omega : 12 < fuel)
  obtain ⟨mtime, hmtime, hmtimeEq⟩ :=
    Number.oct2int_eq (w := 64) h.mtime hp.mtime (by omega : 12 < fuel)
  obtain ⟨devmajor, hdevmajor⟩ := exists_readString (a := a + 329) (by omega) hb
  obtain ⟨devminor, hdevminor⟩ := exists_readString (a := a + 337) (by omega) hb
  have htime : (BitVec.ofNat 64 m.mtime.value).toInt = m.mtime.value := by
    have hlt := m.mtime.value_lt
    rw [BitVec.toInt_ofNat', Int.bmod_eq_of_le] <;> omega
  refine ⟨makedev ((oct2int 64 devmajor).setWidth 32) ((oct2int 64 devminor).setWidth 32), ?_, ?_⟩
  · intro hdev
    obtain ⟨major, hmajor, hmajorEq⟩ :=
      Number.oct2int_eq (w := 64) h.devmajor (hp.devmajor hdev) (by omega : 8 < fuel)
    obtain ⟨minor, hminor, hminorEq⟩ :=
      Number.oct2int_eq (w := 64) h.devminor (hp.devminor hdev) (by omega : 8 < fuel)
    obtain rfl : devmajor = major := Option.some.inj ((hdevmajor fuel (by omega)).symm.trans hmajor)
    obtain rfl : devminor = minor := Option.some.inj ((hdevminor fuel (by omega)).symm.trans hminor)
    rw [hmajorEq, hminorEq, BitVec.setWidth_ofNat_of_le (by omega),
      BitVec.setWidth_ofNat_of_le (by omega)]
    rfl
  · simp only [readHeader, hp.readName_eq h (by omega : 108 < fuel),
      h.readLinkname_eq (by omega : 108 < fuel), hmode, hsize, hmtime, hdevmajor fuel (by omega),
      hdevminor fuel (by omega), Option.bind_eq_bind, Option.bind_some, hmodeEq, hsizeEq, hmtimeEq,
      htime, h.typeflag]
    rfl

/-! ## The whole walk -/

section Walk

variable {σ ι : Type} (vfs : Vfs σ ι)

/-- What one turn of the walk does at a plain member. -/
def Member.step (m : Member) (s : σ) : Except Stop σ := extract vfs (m.entry m.dev) m.data s

theorem Types.ofChar_typeflag (k : Kind) : Types.ofChar k.typeflag = some (match k with
    | .regular => .regular
    | .aregular => .aregular
    | .hardlink => .hardlink
    | .symlink => .symlink
    | .chardev => .chardev
    | .blockdev => .blockdev
    | .directory => .directory
    | .fifo => .fifo
    | .contiguous => .control) := by
  cases k <;> rfl

/-- Only devices have a device number. -/
theorem Member.extract_entry (m : Member) {dev : BitVec 64} (hdev : m.kind.IsDevice → dev = m.dev)
    (s : σ) : extract vfs (m.entry dev) m.data s = m.step vfs s := by
  by_cases h : m.kind.IsDevice
  · rw [hdev h]
    rfl
  · rw [Member.step, extract, extract]
    simp only [Header.entry, Types.ofChar_typeflag]
    cases hkind : m.kind <;> first | rfl | exact absurd (by simp [Kind.IsDevice, hkind]) h

theorem Member.Plain.size_toNat {m : Member} (hp : m.Plain) :
    (BitVec.ofNat 64 m.size.value).toNat = m.data.length := by
  have hlt := m.size.value_lt
  have hsize : m.size.value = m.data.length := by
    by_cases h : m.kind.HasData
    · exact m.size_eq h
    · rw [hp.size_eq h, m.data_eq h]
      rfl
  rw [BitVec.toNat_ofNat, Nat.mod_eq_of_lt (by omega), hsize]

theorem archive_cons (m : Member) (members : List Member) :
    archive (m :: members) = m.bytes ++ archive members := by
  rw [archive, archive, List.flatMap_cons, List.append_assoc]

theorem load_nil {mem : ℕ → UInt8} {a fuel : ℕ} (h : BytesAt mem a (archive [])) (s : σ) :
    load vfs mem (fuel + 1) a s = .ok s := by
  have hzero : mem (a + 257) = 0 := BytesAt.of_replicate h (by omega : 257 < 1024)
  have hmagic : readBytes mem 6 (a + 257) ≠ magic := by
    rw [readBytes, hzero]
    exact fun h => absurd (List.cons.inj h).1 (by decide)
  rw [load, if_neg hmagic]

/-- The step of the walk: after a plain member it is at the next header. -/
theorem Member.Plain.load_cons {m : Member} (hp : m.Plain) {members : List Member}
    {mem : ℕ → UInt8} {a fuel : ℕ} (h : BytesAt mem a (archive (m :: members)))
    (hfit : a + (archive (m :: members)).length ≤ 2 ^ 64)
    (hfuel : (archive (m :: members)).length ≤ fuel) (s : σ) :
    load vfs mem (fuel + 1) a s =
      m.step vfs s >>= load vfs mem fuel (a + m.bytes.length) := by
  obtain ⟨-, hzeros⟩ := BytesAt.append_iff.1 h
  have hzero := hzeros.of_replicate (by omega : 0 < 1024)
  have hend : (archive (m :: members)).length =
      ((m :: members).flatMap Member.bytes).length + 1024 := by
    rw [archive, List.length_append, List.length_replicate]
  have hlength := m.length_bytes
  rw [List.flatMap_cons, List.length_append] at hend hzero
  have hbytes := (BytesAt.append_iff.1 (archive_cons m members ▸ h)).1
  have hlaid := Header.laid (BytesAt.append_iff.1 hbytes).1
  have hdata := (BytesAt.append_iff.1 (BytesAt.append_iff.1 hbytes).2).1
  rw [Header.length_bytes] at hdata
  have hlong : a + (m.bytes.length + (members.flatMap Member.bytes).length) + 0 - a < fuel := by omega
  obtain ⟨dev, hdev, hread⟩ := hp.readHeader_eq hlaid (by omega) hzero hlong
  have hnext : (a + 512 + alignUp m.data.length 512) % 2 ^ 64 = a + m.bytes.length := by
    rw [show 512 = 2 ^ 9 from rfl, alignUp_two_pow (by omega) (by omega), hlength, Nat.mod_eq_of_lt]
    all_goals omega
  have hsize : (m.entry dev).size.toNat = m.data.length := hp.size_toNat
  have hmagic : readBytes mem 6 (a + 257) = magic := hlaid.magic.readBytes_eq
  rw [load, if_pos hmagic, hread]
  change extract vfs (m.entry dev) (readBytes mem (m.entry dev).size.toNat (a + 512)) s >>= _ = _
  rw [hsize, hdata.readBytes_eq, m.extract_entry vfs hdev, hnext]

/-- The walk over an archive of plain members. -/
theorem load_eq {members : List Member} (hplain : ∀ m ∈ members, m.Plain) {mem : ℕ → UInt8} {a : ℕ}
    (h : BytesAt mem a (archive members)) (hfit : a + (archive members).length ≤ 2 ^ 64) :
    ∀ fuel, (archive members).length + members.length < fuel → ∀ s,
      load vfs mem fuel a s = members.foldlM (fun s m => m.step vfs s) s := by
  induction members generalizing a with
  | nil =>
      intro fuel hfuel s
      obtain ⟨fuel, rfl⟩ := Nat.exists_eq_add_of_lt (Nat.zero_lt_of_lt hfuel)
      exact load_nil vfs h s
  | cons m members ih =>
      intro fuel hfuel s
      obtain ⟨fuel, rfl⟩ := Nat.exists_eq_add_of_lt (Nat.zero_lt_of_lt hfuel)
      have hrest := (BytesAt.append_iff.1 (archive_cons m members ▸ h)).2
      rw [Nat.zero_add, (hplain m (List.mem_cons_self ..)).load_cons vfs h hfit (by omega),
        List.foldlM_cons]
      rw [archive_cons, List.length_append] at hfit hfuel
      refine congrArg (m.step vfs s >>= ·) (funext fun s => ?_)
      refine ih (fun m hm => hplain m (List.mem_cons_of_mem _ hm)) hrest (by omega) fuel ?_ s
      rw [List.length_cons] at hfuel
      omega

/-! ## What the walk supports -/

/-- The members that the walk hands over as they are. -/
structure Member.Supported (m : Member) : Prop where
  unprefixed : m.pathPrefix.text = []
  name_fits : ¬ m.name.Full
  link_fits : m.kind.IsLink → ¬ m.linkname.Full
  not_fifo : m.kind ≠ .fifo
  not_contiguous : m.kind ≠ .contiguous
  root_directory : m.name.text = root → m.kind = .directory

theorem Member.Plain.perms_eq {m : Member} (hp : m.Plain) :
    m.perms = BitVec.ofNat 32 m.mode.value := by
  have hlt := hp.mode_lt
  have hand : m.mode.value &&& 0o7777 = m.mode.value := by
    rw [show 0o7777 = 2 ^ 12 - 1 from rfl, Nat.and_two_pow_sub_one_eq_mod, Nat.mod_eq_of_lt hlt]
  apply BitVec.eq_of_toNat_eq
  rw [Header.perms, BitVec.toNat_and, BitVec.toNat_ofNat, Nat.mod_eq_of_lt (by omega)]
  exact hand

theorem Member.Plain.size_toInt {m : Member} (hp : m.Plain) :
    (BitVec.ofNat 64 m.size.value).toInt = m.data.length := by
  have hlt := m.size.value_lt
  have hsize := hp.size_toNat
  rw [BitVec.toNat_ofNat, Nat.mod_eq_of_lt (by omega)] at hsize
  rw [BitVec.toInt_ofNat', Int.bmod_eq_of_le] <;> omega

theorem Member.path_of_unprefixed {m : Member} (h : m.pathPrefix.text = []) :
    m.path = m.name.text := if_pos h

/-- The walk reads the full path of a member exactly if there is no prefix and the name ends within
its field. -/
theorem Member.readName_eq_path_iff (m : Member) :
    m.readName = m.path ↔ m.pathPrefix.text = [] ∧ ¬ m.name.Full := by
  rw [Header.readName, Header.path]
  constructor
  · intro h
    split_ifs at h with hfull hpre hpre
    · exact absurd (List.append_right_eq_self.mp h) (by simpa using m.mode.digits_ne)
    · -- the slash behind the prefix cannot come from the digits of the mode
      have hcount := congrArg (List.count 47) h
      have hdigits : (m.mode.digits.map Number.char).count 47 = 0 := by
        rw [List.count_eq_zero]
        intro hmem
        obtain ⟨d, -, hd⟩ := List.mem_map.mp hmem
        have := congrArg UInt8.toNat hd
        rw [Number.toNat_char] at this
        simp at this
        omega
      rw [List.count_append, hdigits, List.count_append, List.count_cons_self] at hcount
      omega
    · exact ⟨hpre, hfull⟩
    · have hlength := congrArg List.length h
      rw [List.length_append, List.length_cons] at hlength
      omega
  · rintro ⟨hpre, hfull⟩
    rw [if_neg hfull, if_pos hpre]

/-- The step at a plain member, in the terms of the member. -/
theorem Member.Plain.step_eq {m : Member} (hp : m.Plain) (s : σ) : m.step vfs s =
    if m.readName = root then .ok s
    else
      match m.kind with
      | .regular | .aregular =>
          .ok (vfs.store m.readName (m.perms ||| sIfreg) m.data m.data.length m.mtime.value s)
      | .hardlink => .ok (vfs.stamp m.mtime.value (vfs.link m.readName m.readLinkname s))
      | .symlink => .ok (vfs.stamp m.mtime.value (vfs.symlink m.readName m.readLinkname s))
      | .chardev =>
          .ok (vfs.stamp m.mtime.value (vfs.create m.readName (m.perms ||| sIfchr) m.dev s))
      | .blockdev =>
          .ok (vfs.stamp m.mtime.value (vfs.create m.readName (m.perms ||| sIfblk) m.dev s))
      | .directory =>
          .ok (vfs.stamp m.mtime.value (vfs.create m.readName (m.perms ||| sIfdir) 0 s))
      | .fifo => .error .panic
      | .contiguous => .ok s := by
  rw [Member.step, extract]
  simp only [Header.entry, Types.ofChar_typeflag, hp.perms_eq, hp.size_toInt]
  refine if_congr Iff.rfl rfl ?_
  cases m.kind <;> rfl

theorem Member.Supported.step_eq {m : Member} (hs : m.Supported) (hp : m.Plain) (s : σ) :
    m.step vfs s = .ok (m.pass vfs s) := by
  have hname : m.readName = m.path := m.readName_eq_path_iff.mpr ⟨hs.unprefixed, hs.name_fits⟩
  have hlinkname : m.kind.IsLink → m.readLinkname = m.linkname.text := fun h => if_neg (hs.link_fits h)
  rw [hp.step_eq, Member.pass, hname]
  by_cases hroot : m.path = root
  · have hdir := hs.root_directory ((m.path_of_unprefixed hs.unprefixed).symm.trans hroot)
    rw [if_pos hroot, if_pos ⟨hroot, hdir⟩]
  · rw [if_neg hroot, if_neg fun h : m.IsRoot => hroot h.1]
    cases hkind : m.kind with
    | hardlink => rw [hlinkname (.inl hkind)]
    | symlink => rw [hlinkname (.inr hkind)]
    | fifo => exact absurd hkind hs.not_fifo
    | contiguous => exact absurd hkind hs.not_contiguous
    | regular | aregular | chardev | blockdev | directory => rfl

/-- The calls for supported members are the right ones. -/
theorem loads_of_supported {members : List Member} (hplain : ∀ m ∈ members, m.Plain)
    (hs : ∀ m ∈ members, m.Supported) : Loads members := by
  intro σ ι vfs s mem base hfit h
  have hfold : ∀ s, members.foldlM (fun s m => m.step vfs s) s =
      .ok (members.foldl (fun s m => m.pass vfs s) s) := by
    clear h hfit
    induction members with
    | nil => exact fun s => rfl
    | cons m members ih =>
        intro s
        rw [List.foldlM_cons, (hs m (List.mem_cons_self ..)).step_eq vfs
          (hplain m (List.mem_cons_self ..))]
        exact ih (fun m hm => hplain m (List.mem_cons_of_mem _ hm))
          (fun m hm => hs m (List.mem_cons_of_mem _ hm)) (m.pass vfs s)
  refine ⟨(archive members).length + members.length + 1, fun fuel hfuel => ?_⟩
  exact (load_eq vfs hplain h hfit fuel (by omega) s).trans (hfold s)

end Walk

/-! ## A VFS that records its calls -/

/-- A call, with its arguments. -/
inductive Call where
  | create (path : List UInt8) (mode : BitVec 32) (dev : BitVec 64)
  | pwrite (path : List UInt8) (offset : ℕ) (data : List UInt8)
  | unlink (path : List UInt8)
  | link (src target : List UInt8)
  | symlink (src target : List UInt8)
  | setMtim (path : List UInt8) (mtim : ℤ)
  deriving DecidableEq

/-- Every call succeeds. -/
def recorder : Vfs (List Call) (List UInt8) where
  create path mode dev calls := (calls ++ [.create path mode dev], some path)
  pwrite path offset data calls := (calls ++ [.pwrite path offset data], data.length)
  unlink path calls := calls ++ [.unlink path]
  link src target calls := (calls ++ [.link src target], some src)
  symlink src target calls := (calls ++ [.symlink src target], some src)
  setMtim path mtim calls := calls ++ [.setMtim path mtim]

theorem recorder_store (path data : List UInt8) (mode : BitVec 32) (mtim : ℤ) (calls : List Call) :
    recorder.store path mode data data.length mtim calls =
      calls ++ [.create path mode 0, .pwrite path 0 data, .setMtim path mtim] := by
  simp [Vfs.store, recorder]

theorem recorder_stamp (path : List UInt8) (mtim : ℤ) (calls : List Call) (call : Call) :
    recorder.stamp mtim (calls ++ [call], some path) = calls ++ [call, .setMtim path mtim] := by
  simp [Vfs.stamp, recorder]

theorem recorder_create (path : List UInt8) (mode : BitVec 32) (dev : BitVec 64) (mtim : ℤ)
    (calls : List Call) : recorder.stamp mtim (recorder.create path mode dev calls) =
      calls ++ [.create path mode dev, .setMtim path mtim] :=
  recorder_stamp path mtim calls _

theorem recorder_link (src target : List UInt8) (mtim : ℤ) (calls : List Call) :
    recorder.stamp mtim (recorder.link src target calls) =
      calls ++ [.link src target, .setMtim src mtim] :=
  recorder_stamp src mtim calls _

theorem recorder_symlink (src target : List UInt8) (mtim : ℤ) (calls : List Call) :
    recorder.stamp mtim (recorder.symlink src target calls) =
      calls ++ [.symlink src target, .setMtim src mtim] :=
  recorder_stamp src mtim calls _

/-- The calls that a member should lead to. -/
def Member.calls (m : Member) : List Call := m.pass recorder []

theorem Member.pass_recorder (m : Member) (calls : List Call) :
    m.pass recorder calls = calls ++ m.calls := by
  rw [Member.calls, Member.pass, Member.pass]
  split_ifs
  · rw [List.append_nil]
  · cases m.kind <;>
      simp only [recorder_store, recorder_create, recorder_link, recorder_symlink, List.nil_append]

theorem Member.foldl_pass_recorder (members : List Member) (calls : List Call) :
    members.foldl (fun s m => m.pass recorder s) calls = calls ++ members.flatMap Member.calls := by
  induction members generalizing calls with
  | nil => rw [List.foldl_nil, List.flatMap_nil, List.append_nil]
  | cons m members ih =>
      rw [List.foldl_cons, ih, m.pass_recorder, List.flatMap_cons, List.append_assoc]

/-- The calls that the walk makes at a plain member. -/
def Member.made (m : Member) : List Call :=
  match m.step recorder [] with
  | .ok calls => calls
  | .error _ => []

/-- A step that returns has recorded the calls made, and a step that does not never returns. -/
theorem Member.Plain.step_recorder {m : Member} (hp : m.Plain) {calls calls' : List Call}
    (h : m.step recorder calls = .ok calls') :
    m.step recorder [] = .ok m.made ∧ calls' = calls ++ m.made := by
  rw [Member.made]
  rw [hp.step_eq] at h ⊢
  split_ifs at h ⊢
  · obtain rfl : calls = calls' := Except.ok.inj h
    exact ⟨rfl, (List.append_nil calls).symm⟩
  · cases hkind : m.kind <;>
      simp only [hkind, recorder_store, recorder_create, recorder_link, recorder_symlink,
        List.nil_append, Except.ok.injEq, reduceCtorEq] at h ⊢
    all_goals exact ⟨trivial, by simp [← h]⟩

theorem Member.foldlM_step_recorder {members : List Member} (hplain : ∀ m ∈ members, m.Plain)
    {calls calls' : List Call}
    (h : members.foldlM (fun s m => m.step recorder s) calls = .ok calls') :
    (∀ m ∈ members, m.step recorder [] = .ok m.made) ∧
      calls' = calls ++ members.flatMap Member.made := by
  induction members generalizing calls with
  | nil =>
      obtain rfl : calls = calls' := Except.ok.inj h
      exact ⟨nofun, (List.append_nil calls).symm⟩
  | cons m members ih =>
      rw [List.foldlM_cons] at h
      cases hstep : m.step recorder calls with
      | error e => rw [hstep] at h; cases h
      | ok mid =>
          rw [hstep] at h
          obtain ⟨hm, rfl⟩ := (hplain m (List.mem_cons_self ..)).step_recorder hstep
          obtain ⟨hrest, rfl⟩ := ih (fun m hm => hplain m (List.mem_cons_of_mem _ hm)) h
          refine ⟨List.forall_mem_cons.mpr ⟨hm, hrest⟩, ?_⟩
          rw [List.flatMap_cons, List.append_assoc]

/-- The root of the archive is read by its name. -/
theorem Member.IsRoot.name_eq {m : Member} (h : m.IsRoot) :
    m.pathPrefix.text = [] ∧ m.name.text = root := by
  have hpath := h.1
  rw [Header.path] at hpath
  split_ifs at hpath with hpre
  · exact ⟨hpre, hpath⟩
  · have hlength := congrArg List.length hpath
    have hpos := List.length_pos_of_ne_nil hpre
    have hname := List.length_pos_of_ne_nil m.name_ne
    rw [List.length_append, List.length_cons, root, List.length_cons, List.length_cons,
      List.length_nil] at hlength
    omega

theorem Member.IsRoot.supported {m : Member} (h : m.IsRoot) : m.Supported where
  unprefixed := h.name_eq.1
  name_fits := by
    intro hfull
    have hlength := m.name.length_eq
    rw [show m.name.tail = [] from hfull, h.name_eq.2] at hlength
    exact absurd hlength (by decide)
  link_fits := by simp [Kind.IsLink, h.2]
  not_fifo := by simp [h.2]
  not_contiguous := by simp [h.2]
  root_directory := fun _ => h.2

/-- At no member the walk makes more calls than it should. -/
theorem Member.Plain.length_made_le {m : Member} (hp : m.Plain) :
    m.made.length ≤ m.calls.length := by
  by_cases hroot : m.IsRoot
  · have hstep := hroot.supported.step_eq recorder hp []
    rw [Member.made, hstep]
    exact Nat.le_refl _
  · rw [Member.made, hp.step_eq, Member.calls, Member.pass, if_neg hroot]
    split_ifs
    · exact Nat.zero_le _
    · cases m.kind <;>
        simp [recorder_store, recorder_create, recorder_link, recorder_symlink]

/-- A member at which the walk makes the right calls is supported. -/
theorem Member.Plain.supported {m : Member} (hp : m.Plain)
    (hstep : m.step recorder [] = .ok m.calls) : m.Supported := by
  by_cases hroot : m.IsRoot
  · exact hroot.supported
  rw [hp.step_eq, Member.calls, Member.pass, if_neg hroot] at hstep
  split_ifs at hstep with hread
  · -- the walk passes over the member, although it is not the root
    exfalso
    cases hkind : m.kind <;>
      simp [hkind, recorder_store, recorder_create, recorder_link, recorder_symlink] at hstep
  · have hsame : m.readName = m.path ∧ (m.kind.IsLink → m.readLinkname = m.linkname.text) ∧
        m.kind ≠ .fifo ∧ m.kind ≠ .contiguous := by
      cases hkind : m.kind <;>
        simp_all [recorder_store, recorder_create, recorder_link, recorder_symlink, Kind.IsLink]
    obtain ⟨hname, hlinkname, hfifo, hcontiguous⟩ := hsame
    obtain ⟨hpre, hfull⟩ := m.readName_eq_path_iff.mp hname
    refine ⟨hpre, hfull, fun hlink hfull => ?_, hfifo, hcontiguous, fun hroot => ?_⟩
    · have htext := hlinkname hlink
      rw [Header.readLinkname, if_pos hfull, List.append_right_eq_self] at htext
      cases htext
    · exact absurd (hname.trans ((m.path_of_unprefixed hpre).trans hroot)) hread

/-- Two lists made of pieces, each piece of the one no longer than the one of the other, are the same
only piece by piece. -/
theorem eq_of_flatMap_eq {α β : Type} {f g : α → List β} {l : List α}
    (hle : ∀ a ∈ l, (f a).length ≤ (g a).length) (h : l.flatMap f = l.flatMap g) :
    ∀ a ∈ l, f a = g a := by
  induction l with
  | nil => exact nofun
  | cons a l ih =>
      have hrest : (l.flatMap f).length ≤ (l.flatMap g).length := by
        rw [List.length_flatMap, List.length_flatMap]
        exact List.sum_le_sum fun b hb => hle b (List.mem_cons_of_mem _ hb)
      have hlength := congrArg List.length h
      have hhead := hle a (List.mem_cons_self ..)
      rw [List.flatMap_cons, List.flatMap_cons] at h
      rw [List.flatMap_cons, List.flatMap_cons, List.length_append, List.length_append] at hlength
      obtain ⟨hfg, hl⟩ := List.append_inj h (by omega)
      exact List.forall_mem_cons.mpr ⟨hfg, ih (fun b hb => hle b (List.mem_cons_of_mem _ hb)) hl⟩

/-- Where the walk does what it should, all members are supported. -/
theorem Loads.supported {members : List Member} (h : Loads members)
    (hplain : ∀ m ∈ members, m.Plain) (hfit : (archive members).length ≤ 2 ^ 64) :
    ∀ m ∈ members, m.Supported := by
  have hmem := BytesAt.of_getD (archive members)
  obtain ⟨N, hN⟩ := h _ _ recorder [] _ 0 (by omega) hmem
  have hrun := (load_eq recorder hplain hmem (by omega)
    (N + (archive members).length + members.length + 1) (by omega) []).symm.trans (hN _ (by omega))
  obtain ⟨hsteps, hcalls⟩ := Member.foldlM_step_recorder hplain hrun
  rw [Member.foldl_pass_recorder, List.nil_append, List.nil_append] at hcalls
  have heq := eq_of_flatMap_eq (fun m hm => (hplain m hm).length_made_le) hcalls.symm
  exact fun m hm => (hplain m hm).supported (heq m hm ▸ hsteps m hm)

/-- Among the archives with plain numbers, the walk does what it should exactly for those with
supported members only. -/
theorem loads_iff {members : List Member} (hplain : ∀ m ∈ members, m.Plain)
    (hfit : (archive members).length ≤ 2 ^ 64) : Loads members ↔ ∀ m ∈ members, m.Supported :=
  ⟨fun h => h.supported hplain hfit, loads_of_supported hplain⟩

/-- The header of the file `sh` with three bytes of data. -/
def shHeader (pathPrefix : Text 155) (chksum : Number 8) : Header where
  name := .padded [115, 104] (by decide) (by decide)
  mode := .unpadded [0, 0, 0, 0, 7, 5, 5] [0] (by simp) (by simp) (by simp) rfl
  uid := .unpadded [0, 0, 0, 0, 0, 0, 0] [0] (by simp) (by simp) (by simp) rfl
  gid := .unpadded [0, 0, 0, 0, 0, 0, 0] [0] (by simp) (by simp) (by simp) rfl
  size := .unpadded [0, 0, 0, 0, 0, 0, 0, 0, 0, 0, 3] [0] (by simp) (by simp) (by simp) rfl
  mtime := .unpadded [0, 0, 0, 0, 0, 0, 0, 0, 0, 0, 0] [0] (by simp) (by simp) (by simp) rfl
  chksum := chksum
  kind := .regular
  linkname := .padded [] (by decide) (by decide)
  version := [48, 48]
  uname := .padded [] (by decide) (by decide)
  gname := .padded [] (by decide) (by decide)
  devmajor := .unpadded [0, 0, 0, 0, 0, 0, 0] [0] (by simp) (by simp) (by simp) rfl
  devminor := .unpadded [0, 0, 0, 0, 0, 0, 0] [0] (by simp) (by simp) (by simp) rfl
  pathPrefix := pathPrefix
  unused := List.replicate 12 0
  version_length := rfl
  unused_length := rfl

def shMember (pathPrefix : Text 155) (chksum : Number 8)
    (hsum : chksum.value = (shHeader pathPrefix chksum).sum) : Member where
  toHeader := shHeader pathPrefix chksum
  data := [97, 98, 99]
  filler := List.replicate 509 0
  name_ne := List.cons_ne_nil _ _
  chksum_eq := hsum
  size_eq _ := rfl
  data_eq h := absurd (.inl rfl) h
  filler_eq := by rw [List.length_replicate]; rfl
  filler_lt := by rw [List.length_replicate]; omega

theorem shMember_plain (pathPrefix : Text 155) (chksum : Number 8)
    (hsum : chksum.value = (shHeader pathPrefix chksum).sum) :
    (shMember pathPrefix chksum hsum).Plain where
  mode := ⟨rfl, rfl⟩
  size := ⟨rfl, rfl⟩
  mtime := ⟨rfl, rfl⟩
  mode_lt := (by decide : 0o755 < 0o10000)
  size_eq h := absurd (.inl rfl) h
  devmajor := nofun
  devminor := nofun

/-- The file `sh`. -/
def sh : Member :=
  shMember (.padded [] (by decide) (by decide))
    (.unpadded [0, 0, 7, 5, 3, 6] [0, 32] (by simp) (by simp) (by simp) rfl)
    (by decide +kernel)

/-- The file `usr/sh`, with a prefix. -/
def usrSh : Member :=
  shMember (.padded [117, 115, 114] (by decide) (by decide))
    (.unpadded [0, 1, 0, 2, 7, 0] [0, 32] (by simp) (by simp) (by simp) rfl)
    (by decide +kernel)

theorem length_archive_one (m : Member) (h : m.data.length ≤ 512) :
    (archive [m]).length ≤ 2 ^ 64 := by
  have hlength := m.length_bytes
  rw [archive, List.length_append, List.length_replicate, List.flatMap_cons, List.flatMap_nil,
    List.append_nil]
  omega

theorem loads_iff_sh : (∀ m ∈ [sh], m.Plain) ∧ (archive [sh]).length ≤ 2 ^ 64 ∧
    (Loads [sh] ↔ ∀ m ∈ [sh], m.Supported) := by
  have hplain : ∀ m ∈ [sh], m.Plain := List.forall_mem_singleton.mpr (shMember_plain _ _ _)
  have hfit := length_archive_one sh (by decide)
  exact ⟨hplain, hfit, loads_iff hplain hfit⟩

/-- The prefix of a path is not read: `usr/sh` is created as `sh`. -/
theorem prefix_dropped : usrSh.path = [117, 115, 114, 47, 115, 104] ∧
    usrSh.readName = [115, 104] ∧ ¬ Loads [usrSh] := by
  refine ⟨by decide, by decide, fun h => ?_⟩
  have hplain : ∀ m ∈ [usrSh], m.Plain := List.forall_mem_singleton.mpr (shMember_plain _ _ _)
  have hs := h.supported hplain (length_archive_one usrSh (by decide)) usrSh (List.mem_singleton_self _)
  exact absurd hs.unprefixed (by decide)

end Ilobilix.Ustar
