import Ilobilix.Foundation.Radix
import Ilobilix.Memory.Pagemap.Arch

/-!
# The page map of `system/memory/pagemap.cpp`

A page map is a tree of page tables in memory. Tables are read and written through the direct map, so
a table is named here by its physical address and an entry by its table and index. The tables come
from the physical allocator, a parameter: `newTable k` is the page that the `k`-th call of `new_table`
returns, cleared, and it is `none` when memory is exhausted, where the allocator panics.

The loops run over a length in bytes with a counter of 64 bits that may wrap around, so they take
fuel. Next to the tables the state keeps two histories that no function reads: the entries that
`getlvl` followed and the tables that an entry was written to.
-/

namespace Ilobilix.Vmm

open Lib

/-- A `pagemap` on a machine: the physical address `_table` of its root table, the pages that
`new_table` returns, and whether the processor has pages of 1 GiB. -/
structure Pagemap where
  table : ℕ
  newTable : ℕ → Option ℕ
  largePages : Bool

structure Tables where
  /-- the entries of each table -/
  mem : ℕ → ℕ → BitVec 64
  /-- how often `new_table` was called -/
  ntables : ℕ
  /-- the entries followed by `getlvl`, latest first -/
  followed : List (BitVec 64)
  /-- the tables written to, latest first -/
  written : List ℕ

/-- Why a call did not return: `lib::panic`, a loop that was cut off, or a lock that its holder asks
for again. -/
inductive Stop
  | panic
  | fuel
  | deadlock
deriving DecidableEq, Repr

/-- `pte.access()...write()`. -/
def Tables.write (st : Tables) (t j : ℕ) (value : BitVec 64) : Tables :=
  { st with mem := Radix.set st.mem t j value, written := t :: st.written }

/-- The cleared page `t` becomes a table. -/
def Tables.clearTable (st : Tables) (t : ℕ) : Tables :=
  { st with mem := Function.update st.mem t fun _ => 0#64, ntables := st.ntables + 1 }

def Tables.follow (st : Tables) (value : BitVec 64) : Tables :=
  { st with followed := value :: st.followed }

/-- `fixpsize`. -/
def Pagemap.fixpsize (pm : Pagemap) (psize : PageSize) : PageSize :=
  if psize = .large ∧ !pm.largePages then .medium else psize

/-- `getlvl` on the entry `j` of the table `t`. -/
def Pagemap.getlvl (pm : Pagemap) (t j : ℕ) (allocate : Bool) (st : Tables) :
    Except Stop (Tables × Option ℕ) :=
  let value := st.mem t j
  if getflags value validTableFlags && isCanonical (getaddr value) then
    .ok (st.follow value, some (getaddr value))
  else if allocate = false then .ok (st, none)
  else
    match pm.newTable st.ntables with
    | none => .error .panic
    | some ret =>
        let st := st.clearTable ret
        .ok (st.write t j (setflags (setaddr 0#64 ret) newTableFlags), some ret)

/-- `levels`. -/
def levels : ℕ := 4

/-- The loop of `getpte` from the table `pml` on, with the number of levels left. -/
def Pagemap.getpteFrom (pm : Pagemap) (vaddr retidx : ℕ) (allocate : Bool) :
    ℕ → ℕ → ℕ → ℕ → Tables → Except Stop (Tables × Except Error (ℕ × ℕ))
  | 0, _, _, _, st => .ok (st, .error .invalidEntry)
  | left + 1, pml, i, shift, st =>
      let idx := (vaddr >>> shift) &&& 0b111111111
      if i = retidx then .ok (st, .ok (pml, idx))
      else
        match pm.getlvl pml idx allocate st with
        | .error stop => .error stop
        | .ok (st, none) => .ok (st, .error .invalidEntry)
        | .ok (st, some pml) => pm.getpteFrom vaddr retidx allocate left pml (i + 1) (shift - 9) st

/-- `getpte`, which returns the table and the index of an entry. -/
def Pagemap.getpte (pm : Pagemap) (vaddr : ℕ) (psize : PageSize) (allocate : Bool) (st : Tables) :
    Except Stop (Tables × Except Error (ℕ × ℕ)) :=
  pm.getpteFrom vaddr (levels - psize.toNat - 1) allocate levels pm.table 0
    (12 + (levels - 1) * 9) st

/-- `for (std::size_t i = 0; i < length; i += npsize)` with a body that may leave the function with an
error. -/
def forPages (npsize length : ℕ) (body : ℕ → Tables → Except Stop (Tables × Except Error Unit)) :
    ℕ → ℕ → Tables → Except Stop (Tables × Except Error Unit)
  | 0, _, _ => .error .fuel
  | fuel + 1, i, st =>
      if i < length then
        match body i st with
        | .error stop => .error stop
        | .ok (st, .error err) => .ok (st, .error err)
        | .ok (st, .ok ()) => forPages npsize length body fuel ((i + npsize) % 2 ^ 64) st
      else .ok (st, .ok ())

/-- The loop of `map` that takes back the first pages. -/
def Pagemap.rollback (pm : Pagemap) (fuel vaddr : ℕ) (psize : PageSize) (i : ℕ) (st : Tables) :
    Except Stop (Tables × Except Error Unit) :=
  forPages (fromPageSize psize) i (fun ii st =>
    match pm.getpte ((vaddr + ii) % 2 ^ 64) psize true st with
    | .error stop => .error stop
    | .ok (st, .error err) => .ok (st, .error err)
    | .ok (st, .ok (t, j)) => .ok (st.write t j 0#64, .ok ())) fuel 0 st

/-- The loop body of `map`. -/
def Pagemap.mapPage (pm : Pagemap) (fuel vaddr paddr : ℕ) (psize : PageSize) (aflags : BitVec 64)
    (i : ℕ) (st : Tables) : Except Stop (Tables × Except Error Unit) :=
  match pm.getpte ((vaddr + i) % 2 ^ 64) psize true st with
  | .error stop => .error stop
  | .ok (st, .error err) =>
      match pm.rollback fuel vaddr psize i st with
      | .error stop => .error stop
      | .ok (st, .error err1) => .ok (st, .error err1)
      | .ok (st, .ok ()) => .ok (st, .error err)
  | .ok (st, .ok (t, j)) =>
      .ok (st.write t j (setflags (setaddr 0#64 ((paddr + i) % 2 ^ 64)) aflags), .ok ())

def Pagemap.map (pm : Pagemap) (fuel vaddr paddr length : ℕ) (flags : Pflag) (psize : PageSize)
    (cache : Caching) (st : Tables) : Except Stop (Tables × Except Error Unit) :=
  let psize := pm.fixpsize psize
  let npsize := fromPageSize psize
  if vaddr % npsize ≠ 0 then .ok (st, .error .addrNotAligned)
  else
    let aflags := toArch flags cache psize
    forPages npsize length (pm.mapPage fuel vaddr paddr psize aflags) fuel 0 st

/-- The loop body of `protect`. -/
def Pagemap.protectPage (pm : Pagemap) (vaddr : ℕ) (psize : PageSize) (aflags : BitVec 64)
    (i : ℕ) (st : Tables) : Except Stop (Tables × Except Error Unit) :=
  match pm.getpte ((vaddr + i) % 2 ^ 64) psize false st with
  | .error stop => .error stop
  | .ok (st, .ok (t, j)) =>
      .ok (st.write t j (setflags (clearflags (st.mem t j)) aflags), .ok ())
  | .ok (st, .error err) => .ok (st, .error err)

def Pagemap.protect (pm : Pagemap) (fuel vaddr length : ℕ) (flags : Pflag) (psize : PageSize)
    (cache : Caching) (st : Tables) : Except Stop (Tables × Except Error Unit) :=
  let psize := pm.fixpsize psize
  let npsize := fromPageSize psize
  if vaddr % npsize ≠ 0 then .ok (st, .error .addrNotAligned)
  else
    let aflags := toArch flags cache psize
    forPages npsize length (pm.protectPage vaddr psize aflags) fuel 0 st

/-- The loop body of `unmap`: a hole is not an error. -/
def Pagemap.unmapPage (pm : Pagemap) (vaddr : ℕ) (psize : PageSize) (i : ℕ) (st : Tables) :
    Except Stop (Tables × Except Error Unit) :=
  match pm.getpte ((vaddr + i) % 2 ^ 64) psize false st with
  | .error stop => .error stop
  | .ok (st, .error _) => .ok (st, .ok ())
  | .ok (st, .ok (t, j)) => .ok (st.write t j 0#64, .ok ())

def Pagemap.unmap (pm : Pagemap) (fuel vaddr length : ℕ) (psize : PageSize) (st : Tables) :
    Except Stop (Tables × Except Error Unit) :=
  let psize := pm.fixpsize psize
  let npsize := fromPageSize psize
  if vaddr % npsize ≠ 0 then .ok (st, .error .addrNotAligned)
  else forPages npsize length (pm.unmapPage vaddr psize) fuel 0 st

def Pagemap.translate (pm : Pagemap) (vaddr : ℕ) (psize : PageSize) (st : Tables) :
    Except Stop (Tables × Except Error ℕ) :=
  let psize := pm.fixpsize psize
  if vaddr % fromPageSize psize ≠ 0 then .ok (st, .error .addrNotAligned)
  else
    match pm.getpte vaddr psize false st with
    | .error stop => .error stop
    | .ok (st, .error err) => .ok (st, .error err)
    | .ok (st, .ok (t, j)) =>
        let addr := getaddr (st.mem t j)
        if !isCanonical addr then .ok (st, .error .invalidEntry) else .ok (st, .ok addr)

/-! ## The kernel page map -/

/-- The loop of the constructor that pre-allocates the higher half, with the number of entries
left. -/
def Pagemap.preallocate (pm : Pagemap) (i : ℕ) : ℕ → Tables → Except Stop Tables
  | 0, st => .ok st
  | left + 1, st => pm.getlvl pm.table i true st >>= fun r => pm.preallocate (i + 1) left r.1

/-- The constructor of the kernel page map on an empty root table. -/
def Pagemap.construct (pm : Pagemap) (st : Tables) : Except Stop Tables := pm.preallocate 256 256 st

/-- The types of memory that `vmm::init` tells apart. -/
inductive MemmapType
  | usable
  | bootloader
  | kernelAndModules
  | framebuffer
  | other
deriving DecidableEq, Repr

/-- An entry of the memory map of the boot loader. -/
structure Memmap where
  base : ℕ
  length : ℕ
  type : MemmapType
deriving Repr

/-- `psize` of `vmm::init`: the largest page size that the length admits. -/
def Memmap.psize (memmap : Memmap) : PageSize := maxPageSize memmap.length

/-- `base` of `vmm::init`. -/
def Memmap.mapBase (memmap : Memmap) : ℕ := alignDown memmap.base (fromPageSize memmap.psize)

/-- `len` of `vmm::init`. -/
def Memmap.mapLength (memmap : Memmap) : ℕ :=
  (alignUp ((memmap.base + memmap.length) % 2 ^ 64) (fromPageSize memmap.psize) + 2 ^ 64 -
    memmap.mapBase) % 2 ^ 64

/-- `cache` of `vmm::init`. -/
def Memmap.cache (memmap : Memmap) : Caching :=
  if memmap.type = .framebuffer then Caching.framebuffer else Caching.normal

/-- One turn of the loop of `vmm::init` over the memory map. -/
def Pagemap.initEntry (pm : Pagemap) (hhdm fuel : ℕ) (memmap : Memmap) (st : Tables) :
    Except Stop Tables :=
  if memmap.type = .other then .ok st
  else if memmap.length = 0 then .ok st
  else if memmap.mapLength = 0 then .ok st
  else
    match pm.map fuel (tohh hhdm memmap.mapBase) memmap.mapBase memmap.mapLength Pflag.rw memmap.psize
        memmap.cache st with
    | .error stop => .error stop
    | .ok (_, .error _) => .error .panic
    | .ok (st, .ok ()) => .ok st

/-- The loop of `vmm::init` over the memory map. -/
def Pagemap.init (pm : Pagemap) (hhdm fuel : ℕ) : List Memmap → Tables → Except Stop Tables
  | [], st => .ok st
  | memmap :: memmaps, st => pm.initEntry hhdm fuel memmap st >>= pm.init hhdm fuel memmaps

end Ilobilix.Vmm
