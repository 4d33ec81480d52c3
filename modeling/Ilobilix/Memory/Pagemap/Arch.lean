import Ilobilix.Lib.Math
import Mathlib.Tactic.Linarith

/-!
# Page table entries of x86_64

The types of `system/memory/pagemap.cppm`, the accessors of a page table entry and the flags of
`arch/x86_64/system/pagemap.cpp`, with the few facts about their bits that the page map rests on: what
an accessor does to the address and to the flags that the hardware walk looks at.
-/

namespace Ilobilix.Vmm

open Lib

/-- `enum class caching`. -/
inductive Caching
  | uncacheable
  | uncacheableStrong
  | writeThrough
  | writeProtected
  | writeCombining
  | writeBack
  | device
deriving DecidableEq, Repr

/-- `caching::normal`. -/
def Caching.normal : Caching := .writeBack

/-- `caching::framebuffer`. -/
def Caching.framebuffer : Caching := .writeCombining

/-- The bits of `enum class pflag`. -/
structure Pflag where
  read : Bool
  write : Bool
  exec : Bool
  user : Bool
  global : Bool
deriving DecidableEq, Repr

/-- `pflag::rw`. -/
def Pflag.rw : Pflag := ⟨true, true, false, false, false⟩

/-- `enum class page_size`. -/
inductive PageSize
  | small
  | medium
  | large
deriving DecidableEq, Repr

/-- The value of a `page_size`. -/
def PageSize.toNat : PageSize → ℕ
  | .small => 0
  | .medium => 1
  | .large => 2

/-- `enum class error`. -/
inductive Error
  | addrNotAligned
  | addrInUse
  | notMapped
  | invalidEntry
deriving DecidableEq, Repr

/-- `from_page_size`. -/
def fromPageSize : PageSize → ℕ
  | .small => kib 4
  | .medium => mib 2
  | .large => gib 1

/-- `default_page_size()`, the size of a small page. -/
def psize : ℕ := 0x1000

/-- `max_page_size`. -/
def maxPageSize (size : ℕ) : PageSize :=
  if gib 1 < size then .large else if mib 2 < size then .medium else .small

/-- `is_canonical`. -/
def isCanonical (addr : ℕ) : Bool := addr < 0x0000800000000000 || 0xFFFF800000000000 ≤ addr

/-! ## Flags -/

namespace Arch

def present : BitVec 64 := 1 <<< 0

def write : BitVec 64 := 1 <<< 1

def user : BitVec 64 := 1 <<< 2

def pwt : BitVec 64 := 1 <<< 3

def pcd : BitVec 64 := 1 <<< 4

def lpages : BitVec 64 := 1 <<< 7

def pat : BitVec 64 := 1 <<< 7

def global : BitVec 64 := 1 <<< 8

def lpat : BitVec 64 := 1 <<< 12

def noExec : BitVec 64 := 1 <<< 63

end Arch

/-- `pa_mask`. -/
def paMask : BitVec 64 := 0x000FFFFFFFFFF000#64

/-- `valid_table_flags`. -/
def validTableFlags : BitVec 64 := Arch.present

/-- `new_table_flags`. -/
def newTableFlags : BitVec 64 := Arch.present ||| Arch.write ||| Arch.user

/-- `to_arch`. -/
def toArch (flags : Pflag) (cache : Caching) (psize : PageSize) : BitVec 64 :=
  let ret := if flags.read then Arch.present else 0
  let ret := if flags.write then ret ||| Arch.write else ret
  let ret := if flags.user then ret ||| Arch.user else ret
  let ret := if flags.global then ret ||| Arch.global else ret
  let ret := if !flags.exec then ret ||| Arch.noExec else ret
  let ret := if psize ≠ .small then ret ||| Arch.lpages else ret
  let pat := if psize = .small then Arch.pat else Arch.lpat
  match cache with
  | .uncacheable => ret ||| Arch.pcd
  | .uncacheableStrong => ret ||| (Arch.pcd ||| Arch.pwt)
  | .device => ret ||| (Arch.pcd ||| Arch.pwt)
  | .writeThrough => ret ||| Arch.pwt
  | .writeProtected => ret ||| pat
  | .writeCombining => ret ||| (pat ||| Arch.pwt)
  | .writeBack => ret

/-! ## The accessor of an entry -/

def clearflags (value : BitVec 64) : BitVec 64 := value &&& paMask

/-- `setflags(aflags, true)`. -/
def setflags (value aflags : BitVec 64) : BitVec 64 := value ||| aflags

/-- `getflags(aflags)`. -/
def getflags (value aflags : BitVec 64) : Bool := value &&& aflags == aflags

def setaddr (value : BitVec 64) (paddr : ℕ) : BitVec 64 :=
  (value &&& ~~~paMask) ||| (BitVec.ofNat 64 paddr &&& paMask)

def getaddr (value : BitVec 64) : ℕ := (value &&& paMask).toNat

/-! ## Addresses -/

theorem getaddr_setaddr (value : BitVec 64) (paddr : ℕ) :
    getaddr (setaddr value paddr) = getaddr (BitVec.ofNat 64 paddr) := by
  have hmask : setaddr value paddr &&& paMask = BitVec.ofNat 64 paddr &&& paMask := by
    ext i hi
    simp only [setaddr, BitVec.getElem_and, BitVec.getElem_or, BitVec.getElem_not]
    cases paMask[i] <;> simp
  rw [getaddr, hmask, getaddr]

theorem getaddr_setflags {value aflags : BitVec 64} (h : aflags &&& paMask = 0#64) :
    getaddr (setflags value aflags) = getaddr value := by
  have hmask : setflags value aflags &&& paMask = value &&& paMask := by
    rw [setflags, BitVec.and_or_distrib_right, h, BitVec.or_zero]
  rw [getaddr, hmask, getaddr]

theorem getaddr_clearflags (value : BitVec 64) : getaddr (clearflags value) = getaddr value := by
  rw [getaddr, clearflags, BitVec.and_assoc, BitVec.and_self, getaddr]

/-- Page-aligned physical addresses of up to 52 bits survive in an entry. -/
theorem getaddr_ofNat {paddr : ℕ} (halign : 0x1000 ∣ paddr) (hlt : paddr < 2 ^ 52) :
    getaddr (BitVec.ofNat 64 paddr) = paddr := by
  obtain ⟨k, rfl⟩ := halign
  have hk : k < 2 ^ 40 := by omega
  have hmask : paMask.toNat = (2 ^ 40 - 1) <<< 12 := rfl
  have hmod : (0x1000 * k) % 2 ^ 64 = k <<< 12 := by
    rw [Nat.mod_eq_of_lt (by omega), Nat.shiftLeft_eq]
    omega
  rw [getaddr, BitVec.toNat_and, BitVec.toNat_ofNat, hmask, hmod, ← Nat.shiftLeft_and_distrib,
    Nat.and_two_pow_sub_one_eq_mod, Nat.mod_eq_of_lt hk, Nat.shiftLeft_eq]
  omega

/-- The address of an entry is page aligned. -/
theorem getaddr_mod (value : BitVec 64) : getaddr value % 2 ^ 12 = 0 := by
  have hmask : paMask.toNat % 2 ^ 12 = 0 := rfl
  rw [getaddr, BitVec.toNat_and, Nat.and_mod_two_pow, hmask, Nat.and_zero]

/-- Flags that reach into the address, but not to its bits from `n` on. -/
theorem getaddr_setflags_shiftRight (value : BitVec 64) {aflags : BitVec 64} {n : ℕ}
    (h : getaddr aflags >>> n = 0) : getaddr (setflags value aflags) >>> n = getaddr value >>> n := by
  have hor : getaddr (setflags value aflags) = getaddr value ||| getaddr aflags := by
    rw [getaddr, setflags, BitVec.and_or_distrib_right, BitVec.toNat_or, getaddr, getaddr]
  rw [hor, Nat.shiftRight_or_distrib, h, Nat.or_zero]

@[simp] theorem getaddr_zero : getaddr 0#64 = 0 := rfl

/-- The value that `map` and `getlvl` write has the address given. -/
theorem getaddr_mk {paddr : ℕ} {aflags : BitVec 64} (halign : 0x1000 ∣ paddr) (hlt : paddr < 2 ^ 52)
    (hflags : aflags &&& paMask = 0#64) :
    getaddr (setflags (setaddr 0#64 paddr) aflags) = paddr := by
  rw [getaddr_setflags hflags, getaddr_setaddr, getaddr_ofNat halign hlt]

/-! ## Flags of an entry -/

/-- The present bit. -/
def isPresent (value : BitVec 64) : Bool := value.getLsbD 0

/-- The page size bit, which marks an entry above the last level as a leaf. -/
def isLeaf (value : BitVec 64) : Bool := value.getLsbD 7

theorem getflags_valid (value : BitVec 64) : getflags value validTableFlags = isPresent value := by
  have h : value &&& 1#64 = (BitVec.ofBool (value.getLsbD 0)).setWidth 64 :=
    BitVec.and_one_eq_setWidth_ofBool_getLsbD
  change (value &&& 1#64 == 1#64) = value.getLsbD 0
  rw [h]
  cases value.getLsbD 0 <;> rfl

theorem getLsbD_setflags (value aflags : BitVec 64) (i : ℕ) :
    (setflags value aflags).getLsbD i = (value.getLsbD i || aflags.getLsbD i) :=
  BitVec.getLsbD_or

theorem getLsbD_clearflags (value : BitVec 64) (i : ℕ) :
    (clearflags value).getLsbD i = (value.getLsbD i && paMask.getLsbD i) :=
  BitVec.getLsbD_and

/-- A bit outside the mask is not touched by the address. -/
theorem getLsbD_setaddr_zero (paddr : ℕ) {i : ℕ} (h : paMask.getLsbD i = false) :
    (setaddr 0#64 paddr).getLsbD i = false := by
  rw [setaddr, BitVec.getLsbD_or, BitVec.getLsbD_and, BitVec.getLsbD_and, h]
  simp

/-- A bit outside the mask of the value that `map` and `getlvl` write. -/
theorem getLsbD_mk (paddr : ℕ) (aflags : BitVec 64) {i : ℕ} (h : paMask.getLsbD i = false) :
    (setflags (setaddr 0#64 paddr) aflags).getLsbD i = aflags.getLsbD i := by
  rw [getLsbD_setflags, getLsbD_setaddr_zero paddr h, Bool.false_or]

/-- A bit outside the mask of the value that `protect` writes. -/
theorem getLsbD_reflag (value aflags : BitVec 64) {i : ℕ} (h : paMask.getLsbD i = false) :
    (setflags (clearflags value) aflags).getLsbD i = aflags.getLsbD i := by
  rw [getLsbD_setflags, getLsbD_clearflags, h, Bool.and_false, Bool.false_or]

/-! ## `to_arch` -/

theorem toArch_present (flags : Pflag) (cache : Caching) (psize : PageSize) :
    (toArch flags cache psize).getLsbD 0 = flags.read := by
  obtain ⟨r, w, x, u, g⟩ := flags
  revert r w x u g
  cases cache <;> cases psize <;> decide

theorem toArch_write (flags : Pflag) (cache : Caching) (psize : PageSize) :
    (toArch flags cache psize).getLsbD 1 = flags.write := by
  obtain ⟨r, w, x, u, g⟩ := flags
  revert r w x u g
  cases cache <;> cases psize <;> decide

theorem toArch_noExec (flags : Pflag) (cache : Caching) (psize : PageSize) :
    (toArch flags cache psize).getLsbD 63 = !flags.exec := by
  obtain ⟨r, w, x, u, g⟩ := flags
  revert r w x u g
  cases cache <;> cases psize <;> decide

/-- Every page of more than 4 KiB has the page size bit. -/
theorem toArch_lpages (flags : Pflag) (cache : Caching) {psize : PageSize} (h : psize ≠ .small) :
    (toArch flags cache psize).getLsbD 7 = true := by
  obtain ⟨r, w, x, u, g⟩ := flags
  revert r w x u g
  cases psize with
  | small => exact absurd rfl h
  | medium => cases cache <;> decide
  | large => cases cache <;> decide

/-- The flags of a small page do not reach into the address. -/
theorem toArch_small_paMask (flags : Pflag) (cache : Caching) :
    toArch flags cache .small &&& paMask = 0#64 := by
  obtain ⟨r, w, x, u, g⟩ := flags
  revert r w x u g
  cases cache <;> decide

/-- The flags of a larger page reach into the address with one bit, which is below the page. -/
theorem toArch_shiftRight (flags : Pflag) (cache : Caching) {psize : PageSize} (h : psize ≠ .small) :
    getaddr (toArch flags cache psize) >>> 21 = 0 := by
  obtain ⟨r, w, x, u, g⟩ := flags
  revert r w x u g
  cases psize with
  | small => exact absurd rfl h
  | medium => cases cache <;> decide
  | large => cases cache <;> decide

end Ilobilix.Vmm
