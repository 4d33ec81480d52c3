import Mathlib.Algebra.BigOperators.Group.List.Basic
import Mathlib.Algebra.GroupWithZero.Nat
import Mathlib.Data.List.Basic

/-!
# The ustar format

An archive is a sequence of members, each of them a header of 512 bytes and the data in records of
512 bytes, with two records of zeros at the end. The fields of a header have fixed widths. A text may
fill its field, and otherwise ends with a zero byte. A number is in octal digits, may have spaces in
front, and ends with zero bytes or spaces.
-/

namespace Ilobilix.Ustar

/-! ## Fields -/

/-- A text in a field of `width` bytes. Behind the zero byte that ends it anything may stand. -/
structure Text (width : ℕ) where
  text : List UInt8
  tail : List UInt8
  zero_notMem : 0 ∉ text
  tail_head : ∀ c ∈ tail.head?, c = 0
  length_eq : text.length + tail.length = width

namespace Text

variable {width : ℕ}

def bytes (t : Text width) : List UInt8 := t.text ++ t.tail

/-- There is no room for the zero byte. -/
def Full (t : Text width) : Prop := t.tail = []

instance (t : Text width) : Decidable t.Full := inferInstanceAs (Decidable (t.tail = []))

@[simp] theorem length_bytes (t : Text width) : t.bytes.length = width := by
  rw [bytes, List.length_append, t.length_eq]

theorem bytes_of_full {t : Text width} (h : t.Full) : t.bytes = t.text := by
  rw [bytes, h, List.append_nil]

theorem bytes_of_not_full {t : Text width} (h : ¬ t.Full) : ∃ rest, t.bytes = t.text ++ [0] ++ rest := by
  obtain ⟨c, rest, hcons⟩ := List.exists_cons_of_ne_nil h
  refine ⟨rest, ?_⟩
  rw [bytes, hcons, t.tail_head c (by simp [hcons])]
  simp

/-- A text with zeros behind it. -/
def padded (text : List UInt8) (hzero : 0 ∉ text) (hle : text.length ≤ width) : Text width where
  text := text
  tail := List.replicate (width - text.length) 0
  zero_notMem := hzero
  tail_head c hc := List.eq_of_mem_replicate (List.mem_of_mem_head? hc)
  length_eq := by
    rw [List.length_replicate]
    omega

end Text

/-- An octal number in a field of `width` bytes. -/
structure Number (width : ℕ) where
  /-- The number of spaces in front. -/
  pad : ℕ
  digits : List (Fin 8)
  tail : List UInt8
  digits_ne : digits ≠ []
  tail_ne : tail ≠ []
  tail_mem : ∀ c ∈ tail, c = 0 ∨ c = 32
  length_eq : pad + digits.length + tail.length = width

namespace Number

variable {width : ℕ}

/-- The character of a digit. -/
def char (d : Fin 8) : UInt8 := UInt8.ofNat (48 + d)

def bytes (n : Number width) : List UInt8 :=
  List.replicate n.pad 32 ++ (n.digits.map char ++ n.tail)

def value (n : Number width) : ℕ := n.digits.foldl (fun v d => v * 8 + d.val) 0

/-- The digits are at the start of the field, and a zero byte follows. -/
def Plain (n : Number width) : Prop := n.pad = 0 ∧ n.tail.head? = some 0

instance (n : Number width) : Decidable n.Plain :=
  inferInstanceAs (Decidable (n.pad = 0 ∧ n.tail.head? = some 0))

@[simp] theorem length_bytes (n : Number width) : n.bytes.length = width := by
  rw [bytes, List.length_append, List.length_append, List.length_replicate, List.length_map,
    ← Nat.add_assoc, n.length_eq]

@[simp] theorem toNat_char (d : Fin 8) : (char d).toNat = 48 + d := by
  have := d.isLt
  rw [char, UInt8.toNat_ofNat']
  omega

theorem zero_notMem_digits (l : List (Fin 8)) : 0 ∉ l.map char := by
  intro hmem
  obtain ⟨d, -, hd⟩ := List.mem_map.mp hmem
  have := congrArg UInt8.toNat hd
  rw [toNat_char] at this
  simp at this

theorem bytes_of_plain {n : Number width} (h : n.Plain) :
    ∃ rest, n.bytes = n.digits.map char ++ [0] ++ rest := by
  obtain ⟨rest, hrest⟩ := List.head?_eq_some_iff.mp h.2
  refine ⟨rest, ?_⟩
  rw [bytes, h.1, hrest]
  simp

theorem foldl_lt (l : List (Fin 8)) {v k : ℕ} (hv : v < 8 ^ k) :
    l.foldl (fun v d => v * 8 + d.val) v < 8 ^ (k + l.length) := by
  induction l generalizing v k with
  | nil => exact hv
  | cons d l ih =>
      have hlt : v * 8 + d < 8 ^ (k + 1) := by
        have := d.isLt
        rw [Nat.pow_succ]
        omega
      have := ih hlt
      rwa [Nat.add_right_comm, Nat.add_assoc k l.length 1] at this

theorem value_lt (n : Number width) : n.value < 8 ^ (width - 1) := by
  have hlt := foldl_lt n.digits (v := 0) (k := 0) (by decide)
  have htail := List.length_pos_of_ne_nil n.tail_ne
  have hlength := n.length_eq
  have hle : n.digits.length ≤ width - 1 := by omega
  rw [Nat.zero_add] at hlt
  exact Nat.lt_of_lt_of_le hlt (Nat.pow_le_pow_right (Nat.succ_pos 7) hle)

/-- A number without spaces in front. -/
def unpadded (digits : List (Fin 8)) (tail : List UInt8) (hdigits : digits ≠ []) (htail : tail ≠ [])
    (hmem : ∀ c ∈ tail, c = 0 ∨ c = 32) (hlength : digits.length + tail.length = width) :
    Number width :=
  ⟨0, digits, tail, hdigits, htail, hmem, by rw [Nat.zero_add, hlength]⟩

end Number

/-! ## Members -/

/-- The type of a member. A regular file has two type characters. -/
inductive Kind where
  | regular | aregular | hardlink | symlink | chardev | blockdev | directory | fifo | contiguous
  deriving DecidableEq

namespace Kind

def typeflag : Kind → UInt8
  | .regular => 48
  | .aregular => 0
  | .hardlink => 49
  | .symlink => 50
  | .chardev => 51
  | .blockdev => 52
  | .directory => 53
  | .fifo => 54
  | .contiguous => 55

/-- Only members of these types have data; in the others the size says something else. -/
def HasData (k : Kind) : Prop := k = .regular ∨ k = .aregular ∨ k = .contiguous

def IsLink (k : Kind) : Prop := k = .hardlink ∨ k = .symlink

def IsDevice (k : Kind) : Prop := k = .chardev ∨ k = .blockdev

instance (k : Kind) : Decidable k.HasData :=
  inferInstanceAs (Decidable (k = .regular ∨ k = .aregular ∨ k = .contiguous))

instance (k : Kind) : Decidable k.IsLink := inferInstanceAs (Decidable (k = .hardlink ∨ k = .symlink))

instance (k : Kind) : Decidable k.IsDevice :=
  inferInstanceAs (Decidable (k = .chardev ∨ k = .blockdev))

end Kind

/-- `"ustar"` with the zero byte. -/
def magicBytes : List UInt8 := [117, 115, 116, 97, 114, 0]

/-- The fields of a header. -/
structure Header where
  name : Text 100
  mode : Number 8
  uid : Number 8
  gid : Number 8
  size : Number 12
  mtime : Number 12
  chksum : Number 8
  kind : Kind
  linkname : Text 100
  version : List UInt8
  uname : Text 32
  gname : Text 32
  devmajor : Number 8
  devminor : Number 8
  pathPrefix : Text 155
  /-- The bytes behind the last field. -/
  unused : List UInt8
  version_length : version.length = 2
  unused_length : unused.length = 12

namespace Header

def beforeChksum (h : Header) : List UInt8 :=
  h.name.bytes ++ (h.mode.bytes ++ (h.uid.bytes ++ (h.gid.bytes ++ (h.size.bytes ++ h.mtime.bytes))))

def afterChksum (h : Header) : List UInt8 :=
  h.kind.typeflag :: (h.linkname.bytes ++ (magicBytes ++ (h.version ++ (h.uname.bytes ++
    (h.gname.bytes ++ (h.devmajor.bytes ++ (h.devminor.bytes ++ (h.pathPrefix.bytes ++
      h.unused))))))))

def bytes (h : Header) : List UInt8 := h.beforeChksum ++ (h.chksum.bytes ++ h.afterChksum)

/-- The sum of the bytes of the header, with spaces in place of the sum. -/
def sum (h : Header) : ℕ :=
  ((h.beforeChksum ++ (List.replicate 8 32 ++ h.afterChksum)).map UInt8.toNat).sum

/-- The full path. -/
def path (h : Header) : List UInt8 :=
  if h.pathPrefix.text = [] then h.name.text else h.pathPrefix.text ++ 47 :: h.name.text

@[simp] theorem length_beforeChksum (h : Header) : h.beforeChksum.length = 148 := by
  simp [beforeChksum]

@[simp] theorem length_bytes (h : Header) : h.bytes.length = 512 := by
  simp [bytes, afterChksum, magicBytes, h.version_length, h.unused_length]

end Header

/-- A member of a valid archive. -/
structure Member extends Header where
  data : List UInt8
  /-- The bytes that fill the last record of the data. -/
  filler : List UInt8
  name_ne : name.text ≠ []
  chksum_eq : chksum.value = toHeader.sum
  size_eq : kind.HasData → size.value = data.length
  data_eq : ¬ kind.HasData → data = []
  filler_eq : (data.length + filler.length) % 512 = 0
  filler_lt : filler.length < 512

namespace Member

def bytes (m : Member) : List UInt8 := m.toHeader.bytes ++ (m.data ++ m.filler)

/-- The data and what fills its last record. -/
theorem length_records (m : Member) :
    m.data.length + m.filler.length = (m.data.length + 511) / 512 * 512 := by
  have hmod := m.filler_eq
  have hlt := m.filler_lt
  omega

theorem length_bytes (m : Member) : m.bytes.length = 512 + (m.data.length + 511) / 512 * 512 := by
  rw [bytes, List.length_append, List.length_append, Header.length_bytes, length_records]

end Member

/-- The bytes of an archive. -/
def archive (members : List Member) : List UInt8 :=
  members.flatMap Member.bytes ++ List.replicate 1024 0

end Ilobilix.Ustar
