import Ilobilix.Foundation.Intervals
import Ilobilix.Memory.Pagemap.Model

/-!
# Address spaces: `system/memory/vmm.cpp`

An address space is a page map and a tree of mappings, a B-tree multiset ordered by `startp`. The tree
is a list here: `emplace` inserts behind the elements with the same key and `eraseKey` removes every
element with the key of its argument, as the third-party multiset does.

Each of `map`, `unmap` and `protect` takes the entries that overlap its range one after the other,
erases each from the tree, puts `mapPieces`, `unmapPieces` or `protectPieces` in its place and calls
the page map for the part of the entry in the range. The write lock of the tree is held during a call,
so calls do not interleave. `panic_if` stops a call.
-/

namespace Ilobilix.Vmm

open Lib Intervals

/-- `struct mapping`; `obj` is the identity of the object behind the shared pointer. -/
structure Mapping where
  startp : ℕ
  endp : ℕ
  obj : ℕ
  offsetp : ℕ
  prot : BitVec 8
  flags : BitVec 8
deriving DecidableEq, Repr

/-- `flags & flag::untouchable`. -/
def Mapping.untouchable (entry : Mapping) : Bool := entry.flags.getLsbD 6

/-- A `vmspace` with the pages that the objects hold. -/
structure Space where
  pmap : Tables
  tree : List Mapping
  /-- `obj->pages`: the frame of an object at an index -/
  pages : ℕ → ℕ → Option ℕ

/-- `startp < entry.endp && entry.startp < endp`. -/
def overlaps (startp endp : ℕ) (entry : Mapping) : Bool :=
  startp < entry.endp && entry.startp < endp

/-- The differences of page numbers and of addresses wrap around. -/
def wsub (a b : ℕ) : ℕ := (a + 2 ^ 64 - b) % 2 ^ 64

/-- The first page of a range. -/
def startPage (address : ℕ) : ℕ := address / psize

/-- `lib::div_roundup(address + length, psize)`. -/
def endPage (address length : ℕ) : ℕ := divRoundup ((address + length) % 2 ^ 64) psize

/-- The address and the size of the part of an entry that lies in a range. -/
def partOf (startp endp : ℕ) (entry : Mapping) : ℕ × ℕ :=
  let addr := max startp entry.startp * psize % 2 ^ 64
  (addr, wsub (min endp entry.endp * psize % 2 ^ 64) addr)

/-- `pmap->unmap(addr, sz)` for the part of an entry that lies in the range. -/
def unmapPart (pm : Pagemap) (fuel startp endp : ℕ) (entry : Mapping) (pmap : Tables) :
    Except Stop (Tables × Except Error Unit) :=
  let (addr, sz) := partOf startp endp entry
  pm.unmap fuel addr sz .small pmap

/-- The page flags for a `prot`. -/
def pflagsOf (prot : BitVec 8) : Pflag where
  read := prot.getLsbD 0
  write := prot.getLsbD 1
  exec := prot.getLsbD 2
  user := true
  global := false

/-- `pmap->protect(addr, sz, pflags)` for the part of an entry that lies in the range. -/
def protectPart (pm : Pagemap) (fuel startp endp : ℕ) (prot : BitVec 8) (entry : Mapping)
    (pmap : Tables) : Except Stop (Tables × Except Error Unit) :=
  let (addr, sz) := partOf startp endp entry
  pm.protect fuel addr sz (pflagsOf prot) .small .normal pmap

/-- One turn of a loop over the overlapping entries: the entry is replaced in the tree and the page
map is called for its part in the range, which panics if that fails. -/
def Space.replace (pieces : Mapping → List Mapping)
    (part : Mapping → Tables → Except Stop (Tables × Except Error Unit)) (entry : Mapping)
    (s : Space) : Except Stop Space :=
  match part entry s.pmap with
  | .error stop => .error stop
  | .ok (_, .error _) => .error .panic
  | .ok (pmap, .ok ()) =>
      .ok { s with pmap := pmap, tree := replaceEntry Mapping.startp entry (pieces entry) s.tree }

/-- The loop over the overlapping entries. -/
def Space.replaceAll (pieces : Mapping → List Mapping)
    (part : Mapping → Tables → Except Stop (Tables × Except Error Unit)) :
    List Mapping → Space → Except Stop Space
  | [], s => .ok s
  | entry :: overlapping, s =>
      match s.replace pieces part entry with
      | .error stop => .error stop
      | .ok s => s.replaceAll pieces part overlapping

/-! ## `map` -/

/-- What `map` emplaces for an entry that overlaps its range. The test in front of the tail is
`endp != 0`. -/
def mapPieces (startp endp : ℕ) (entry : Mapping) : List Mapping :=
  if startp ≤ entry.startp ∧ entry.endp ≤ endp then []
  else
    let headp := if startp < entry.startp then 0 else startp - entry.startp
    let tailp := if entry.endp ≤ endp then 0 else entry.endp - endp
    (if headp ≠ 0 then [{ entry with endp := (entry.startp + headp) % 2 ^ 64 }] else []) ++
      (if endp ≠ 0 then
        [{ entry with
            startp := wsub entry.endp tailp
            offsetp := (entry.offsetp + headp + wsub endp startp) % 2 ^ 64 }]
      else [])

/-- The loop of `map`, which leaves the function at the first untouchable entry. -/
def Space.mapLoop (pm : Pagemap) (fuel startp endp : ℕ) :
    List Mapping → Space → Except Stop (Space × Except Error Unit)
  | [], s => .ok (s, .ok ())
  | entry :: overlapping, s =>
      if entry.untouchable then .ok (s, .error .addrInUse)
      else
        match s.replace (mapPieces startp endp) (unmapPart pm fuel startp endp) entry with
        | .error stop => .error stop
        | .ok s => s.mapLoop pm fuel startp endp overlapping

def Space.map (pm : Pagemap) (fuel address length : ℕ) (prot flags : BitVec 8) (obj offset : ℕ)
    (s : Space) : Except Stop (Space × Except Error Unit) :=
  if address % psize ≠ 0 then .ok (s, .error .addrNotAligned)
  else if offset % psize ≠ 0 then .ok (s, .error .addrNotAligned)
  else
    let offsetp := offset / psize
    let startp := startPage address
    let endp := endPage address length
    let overlapping := s.tree.filter (overlaps startp endp)
    match s.mapLoop pm fuel startp endp overlapping with
    | .error stop => .error stop
    | .ok (s, .error err) => .ok (s, .error err)
    | .ok (s, .ok ()) =>
        let m : Mapping := ⟨startp, endp, obj, offsetp, prot, flags⟩
        .ok ({ s with tree := emplace Mapping.startp m s.tree }, .ok ())

/-! ## `unmap` -/

/-- What `unmap` emplaces for an entry that overlaps its range. -/
def unmapPieces (startp endp : ℕ) (entry : Mapping) : List Mapping :=
  if startp ≤ entry.startp ∧ entry.endp ≤ endp then []
  else
    let headp := if entry.startp < startp then startp - entry.startp else 0
    let tailp := if endp < entry.endp then entry.endp - endp else 0
    (if headp ≠ 0 then [{ entry with endp := (entry.startp + headp) % 2 ^ 64 }] else []) ++
      (if tailp ≠ 0 then
        [{ entry with
            startp := wsub entry.endp tailp
            offsetp := wsub (entry.offsetp + wsub entry.endp entry.startp) tailp }]
      else [])

def Space.unmap (pm : Pagemap) (fuel address length : ℕ) (s : Space) :
    Except Stop (Space × Except Error Unit) :=
  if address % psize ≠ 0 then .ok (s, .error .addrNotAligned)
  else
    let startp := startPage address
    let endp := endPage address length
    let overlapping := s.tree.filter fun entry => overlaps startp endp entry && !entry.untouchable
    match s.replaceAll (unmapPieces startp endp) (unmapPart pm fuel startp endp) overlapping with
    | .error stop => .error stop
    | .ok s => .ok (s, .ok ())

/-- `unmap` of every mapping of an object. -/
def Space.unmapObj (pm : Pagemap) (fuel obj : ℕ) (s : Space) :
    Except Stop (Space × Except Error Unit) :=
  let overlapping := s.tree.filter fun entry => entry.obj == obj && !entry.untouchable
  match s.replaceAll (fun _ => [])
      (fun entry => unmapPart pm fuel entry.startp entry.endp entry) overlapping with
  | .error stop => .error stop
  | .ok s => .ok (s, .ok ())

/-! ## `protect` -/

/-- What `protect` emplaces for an entry that overlaps its range: the part in the range comes last. -/
def protectPieces (startp endp : ℕ) (prot : BitVec 8) (entry : Mapping) : List Mapping :=
  if startp ≤ entry.startp ∧ entry.endp ≤ endp then [{ entry with prot := prot }]
  else
    let headp := if entry.startp < startp then startp - entry.startp else 0
    let tailp := if endp < entry.endp then entry.endp - endp else 0
    (if headp ≠ 0 then [{ entry with endp := (entry.startp + headp) % 2 ^ 64 }] else []) ++
      (if tailp ≠ 0 then
        [{ entry with
            startp := wsub entry.endp tailp
            offsetp := wsub (entry.offsetp + wsub entry.endp entry.startp) tailp }]
      else []) ++
      [{ entry with
          startp := max startp entry.startp
          endp := min endp entry.endp
          offsetp := (entry.offsetp + headp) % 2 ^ 64
          prot := prot }]

def Space.protect (pm : Pagemap) (fuel address length : ℕ) (prot : BitVec 8) (s : Space) :
    Except Stop (Space × Except Error Unit) :=
  if address % psize ≠ 0 then .ok (s, .error .addrNotAligned)
  else
    let pages := divRoundup length psize
    let startp := startPage address
    let endp := (startp + pages) % 2 ^ 64
    let overlapping := s.tree.filter fun entry => overlaps startp endp entry && !entry.untouchable
    match s.replaceAll (protectPieces startp endp prot) (protectPart pm fuel startp endp prot)
        overlapping with
    | .error stop => .error stop
    | .ok s => .ok (s, .ok ())

/-! ## `is_mapped` and `find_free_region` -/

/-- The loop of `is_mapped`. -/
def isMappedLoop (endp : ℕ) : List Mapping → ℕ → Bool
  | [], covered => endp ≤ covered
  | entry :: overlapping, covered =>
      if entry.endp < covered then isMappedLoop endp overlapping covered
      else if covered < entry.startp then false
      else
        let covered := max covered (min endp entry.endp)
        if endp ≤ covered then true else isMappedLoop endp overlapping covered

def Space.isMapped (addr length : ℕ) (s : Space) : Bool :=
  if length = 0 then false
  else
    let startp := startPage addr
    let endp := (startp + divRoundup length psize) % 2 ^ 64
    isMappedLoop endp (s.tree.filter (overlaps startp endp)) 0

/-- The loop of `find_free_region`. -/
def findFreeLoop (pages : ℕ) : List Mapping → ℕ → ℕ
  | [], lastEndp => lastEndp * psize % 2 ^ 64
  | entry :: tree, lastEndp =>
      if pages ≤ wsub entry.startp lastEndp then lastEndp * psize % 2 ^ 64
      else findFreeLoop pages tree entry.endp

def Space.findFreeRegion (length : ℕ) (s : Space) : ℕ :=
  findFreeLoop (divRoundup length psize) s.tree 0

/-! ## `handle_pfault` -/

/-- `object::get_page`: the page that the object holds, or the one that `request_page` returns, zero
if there is none. -/
def Space.getPage (obj idx requested : ℕ) (s : Space) : Space × ℕ :=
  match s.pages obj idx with
  | some page => (s, page)
  | none =>
      if requested ≠ 0 then
        let held := Function.update (s.pages obj) idx (some requested)
        ({ s with pages := Function.update s.pages obj held }, requested)
      else (s, 0)

/-- `handle_pfault`. The caller's processor gives the address and whether the access was a write;
`useCount` is the count of the shared pointer to the object of the entry and `requested` what
`request_page` returns. Copy on write calls `vmspace->map`, which waits for the write lock of the tree
that `handle_pfault` holds. -/
def Space.handlePfault (pm : Pagemap) (fuel addr : ℕ) (onWrite : Bool) (useCount requested : ℕ)
    (s : Space) : Except Stop (Space × Bool) :=
  let page := addr / psize
  match s.tree.find? fun entry => entry.startp ≤ page && page < entry.endp with
  | none => .ok (s, false)
  | some entry =>
      if onWrite && entry.flags.getLsbD 1 && 1 < useCount then .error .deadlock
      else
        let pidx := ((page - entry.startp) + entry.offsetp) % 2 ^ 64
        match s.getPage entry.obj pidx requested with
        | (s, pg) =>
            if pg = 0 then .ok (s, false)
            else
              match pm.translate (page * psize % 2 ^ 64) .small s.pmap with
              | .error stop => .error stop
              | .ok (pmap, ret) =>
                  let s := { s with pmap := pmap }
                  if ret = .ok pg then .ok (s, false)
                  else
                    match pm.map fuel (page * psize % 2 ^ 64) pg psize (pflagsOf entry.prot) .small
                        .normal s.pmap with
                    | .error stop => .error stop
                    | .ok (pmap, .error _) => .ok ({ s with pmap := pmap }, false)
                    | .ok (pmap, .ok ()) => .ok ({ s with pmap := pmap }, true)

end Ilobilix.Vmm
