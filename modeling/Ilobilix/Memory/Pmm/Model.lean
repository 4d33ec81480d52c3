import Ilobilix.Lib.Math
import Mathlib.Logic.Function.Basic

/-!
# The buddy allocator of `system/memory/pmm.cpp`

One `allocator<Start, End>` with the memory it works on. The free lists are intrusive: a `list` object
lives in the first bytes of each free block, so the allocator state has a memory of `list` objects
indexed by (direct map) address, next to the list heads and the page database.

`bug_on` and the dereference of a null `list` pointer stop a function with an error. The loops of
`coalesce_to` follow list pointers, so they take fuel; `Stop.fuel` is the error of a run that was cut
off.
-/

namespace Ilobilix.Pmm

open Lib

/-- `page_size`. -/
def pageSize : ℕ := 0x1000

/-- `max_order`. -/
def maxOrder : ℕ := 15

/-- `page_bits`. -/
def pageBits : ℕ := 12

/-- `paddr_bits`. -/
def paddrBits : ℕ := 48

/-- The bit fields of `struct page`; `next_paddr` has `paddr_bits - page_bits` bits, `order` has
`std::bit_width(max_order)` bits and `allocated` has one. -/
structure Page where
  nextPaddr : ℕ
  order : ℕ
  allocated : Bool
deriving DecidableEq, Repr

/-- Assigning to the bit field `next_paddr` keeps the low 36 bits. -/
def Page.setNextPaddr (pg : Page) (v : ℕ) : Page :=
  { pg with nextPaddr := v % 2 ^ (paddrBits - pageBits) }

/-- Assigning to the bit field `order` keeps the low 4 bits. -/
def Page.setOrder (pg : Page) (v : ℕ) : Page :=
  { pg with order := v % 2 ^ bitWidth maxOrder }

def Page.setAllocated (pg : Page) (v : Bool) : Page :=
  { pg with allocated := v }

/-- A `list` object; `none` is the null pointer. -/
structure Node where
  prev : Option ℕ
  next : Option ℕ
deriving DecidableEq, Repr

/-- The template arguments of an `allocator` and the direct map offset. -/
structure Zone where
  start : ℕ
  stop : ℕ
  hhdm : ℕ

/-- The state of one allocator: `lists[k].next`, the `list` objects in memory and the page
database. -/
structure State where
  lists : ℕ → Option ℕ
  mem : ℕ → Node
  pfndb : ℕ → Page

/-- Why a function of the allocator did not return. -/
inductive Stop
  | bug
  | nullptr
  | fuel
deriving DecidableEq, Repr

/-- The allocator as constructed, over a zeroed page database. -/
def State.initial : State where
  lists _ := none
  mem _ := ⟨none, none⟩
  pfndb _ := ⟨0, 0, false⟩

def State.setList (st : State) (order : ℕ) (p : Option ℕ) : State :=
  { st with lists := Function.update st.lists order p }

def State.setNode (st : State) (addr : ℕ) (n : Node) : State :=
  { st with mem := Function.update st.mem addr n }

/-- `if (p) p->prev = v`. -/
def State.setPrev (st : State) (p : Option ℕ) (v : Option ℕ) : State :=
  match p with
  | some a => st.setNode a { st.mem a with prev := v }
  | none => st

/-- `p->next = v`. -/
def State.setNext (st : State) (a : ℕ) (v : Option ℕ) : State :=
  st.setNode a { st.mem a with next := v }

def State.setPage (st : State) (idx : ℕ) (pg : Page) : State :=
  { st with pfndb := Function.update st.pfndb idx pg }

/-- `lib::bug_on`. -/
def bugOn (b : Bool) : Except Stop Unit := if b then .error .bug else .ok ()

/-- Following a `list` pointer. -/
def deref (p : Option ℕ) : Except Stop ℕ :=
  match p with
  | some a => .ok a
  | none => .error .nullptr

/-- `reinterpret` a word as a signed `ptrdiff_t`. -/
def ptrdiff (n : ℕ) : ℤ := if n < 2 ^ 63 then n else (n : ℤ) - 2 ^ 64

def prevOrderFrom (size : ℕ) : ℤ :=
  if size < pageSize then -1
  else ptrdiff ((log2 (prePow2 size) + (2 ^ 64 - 12)) % 2 ^ 64)

def nextOrderFrom (size : ℕ) : ℤ :=
  if size < pageSize then -1
  else ptrdiff ((log2 (nextPow2 size) + (2 ^ 64 - 12)) % 2 ^ 64)

/-- `page_size * lib::pow2(order)`, the size of a block in bytes. -/
def blockBytes (order : ℕ) : ℕ := pageSize * pow2 order % 2 ^ 64

/-- `page_for`, as an index into the page database. -/
def Zone.pageFor (z : Zone) (addr : ℕ) : ℕ := fromhh z.hhdm addr / pageSize

/-! ## The free lists -/

def put (order : ℕ) (pg : ℕ) (st : State) : State :=
  let head := st.lists order
  let st := st.setNode pg ⟨none, head⟩
  let st := st.setPrev head (some pg)
  st.setList order (some pg)

def rem (order : ℕ) (st : State) : Except Stop (State × ℕ) := do
  let ret ← deref (st.lists order)
  let head := (st.mem ret).next
  let st := st.setList order head
  return (st.setPrev head none, ret)

def hasPages (order : ℕ) (st : State) : Bool := (st.lists order).isSome

/-- The lambda `remove` of `coalesce_to`. The fields of `pg` are read again after the first write. -/
def remove (order : ℕ) (pg : ℕ) (st : State) : State :=
  let st := match (st.mem pg).prev with
    | some p => st.setNext p (st.mem pg).next
    | none => st.setList order (st.mem pg).next
  st.setPrev (st.mem pg).next (st.mem pg).prev

/-! ## `add_range` -/

/-- The inner loop of `add_range`: the largest order not above `order` that `base` is aligned to;
`none` when the counter wraps below zero. -/
def alignOrder (base : ℕ) : ℕ → Option ℕ
  | 0 => if base % blockBytes 0 = 0 then some 0 else none
  | order + 1 =>
      if base % blockBytes (order + 1) = 0 then some (order + 1) else alignOrder base order

/-- The loop of `add_range`. Each turn takes at least a page off `size`, so `size / page_size` turns
are all there are and the last argument only makes the recursion structural. -/
def addRangeLoop (z : Zone) : ℕ → ℕ → ℕ → State → State × ℕ
  | 0, _, size, st => (st, size)
  | fuel + 1, base, size, st =>
      if pageSize ≤ size then
        let st := st.setNode base ⟨none, none⟩
        let sorder := prevOrderFrom size
        if sorder < 0 then (st, size)
        else
          match alignOrder base (min sorder.toNat maxOrder) with
          | none => (st, size)
          | some order =>
              let idx := z.pageFor base
              let st := st.setPage idx ((st.pfndb idx).setOrder order)
              let st := put order base st
              let offset := blockBytes order
              addRangeLoop z fuel ((base + offset) % 2 ^ 64) (size - offset) st
      else (st, size)

def addRange (z : Zone) (base size : ℕ) (st : State) : State × ℕ :=
  if base < z.start ∨ z.stop < (base + size) % 2 ^ 64 then (st, size)
  else addRangeLoop z (size / pageSize) (tohh z.hhdm base) size st

/-! ## `split_to` -/

/-- The first loop of `split_to`: the first order from `current` on with a free block; `none` is the
early return. The last argument counts the orders left. -/
def splitFrom (st : State) (current : ℕ) : ℕ → Option ℕ
  | 0 => none
  | left + 1 => if hasPages current st then some current else splitFrom st (current + 1) left

/-- The page database after one turn of `split_to`; `pg` and `buddy` are page numbers and `paddr` is
the value written to `next_paddr`. -/
def splitPages (current pg buddy paddr : ℕ) (st : State) : State :=
  let st := st.setPage pg ((st.pfndb pg).setOrder current)
  let st := st.setPage buddy ((st.pfndb buddy).setOrder current)
  let st := st.setPage buddy ((st.pfndb buddy).setNextPaddr (st.pfndb pg).nextPaddr)
  st.setPage pg ((st.pfndb pg).setNextPaddr paddr)

/-- One turn of the second loop of `split_to`: halve the first free block of order `current + 1`. -/
def splitStep (z : Zone) (current : ℕ) (st : State) : Except Stop State := do
  let (st, pg) ← rem (current + 1) st
  let buddy := (pg + blockBytes current) % 2 ^ 64
  let pgPage := z.pageFor pg
  let buddyPage := z.pageFor buddy
  bugOn (st.pfndb pgPage).allocated
  bugOn (st.pfndb buddyPage).allocated
  let st := splitPages current pgPage buddyPage (fromhh z.hhdm buddy >>> pageBits) st
  let st := put current pg st
  return put current buddy st

/-- The second loop of `split_to`. -/
def splitDown (z : Zone) (target : ℕ) : ℕ → State → Except Stop State
  | 0, st => .ok st
  | current + 1, st => do
      if target < current + 1 then
        let st ← splitStep z current st
        splitDown z target current st
      else return st

def splitTo (z : Zone) (target : ℕ) (st : State) : Except Stop State :=
  match splitFrom st (target + 1) (maxOrder - target) with
  | none => .ok st
  | some current => splitDown z target current st

/-! ## `coalesce_to` -/

/-- The innermost loop of `coalesce_to`: skip the nodes that cannot be the lower half of a pair;
`none` when the list ends, which is the `goto end`. -/
def scan (z : Zone) (order : ℕ) (st : State) : ℕ → ℕ → Except Stop (Option ℕ)
  | 0, _ => .error .fuel
  | fuel + 1, curr =>
      if (st.pfndb (z.pageFor curr)).nextPaddr = 0 ∨ curr % blockBytes (order + 1) ≠ 0 then
        match (st.mem curr).next with
        | none => .ok none
        | some next => scan z order st fuel next
      else .ok (some curr)

/-- The page database after a merge in `coalesce_to`; `merged` and `buddy` are page numbers. -/
def mergePages (order merged buddy : ℕ) (st : State) : State :=
  let st := st.setPage merged ((st.pfndb merged).setOrder (order + 1))
  st.setPage merged ((st.pfndb merged).setNextPaddr (st.pfndb buddy).nextPaddr)

/-- The merge at the end of the loop body of `coalesce_to`. -/
def merge (z : Zone) (order curr buddy : ℕ) (st : State) : State :=
  let st := remove order curr st
  let st := remove order buddy st
  let st := mergePages order (z.pageFor curr) (z.pageFor buddy) st
  put (order + 1) curr st

/-- The `while` loop of `coalesce_to` at one order, with the loop variable `curr`. -/
def coalesceOrder (z : Zone) (order : ℕ) : ℕ → Option ℕ → State → Except Stop State
  | 0, _, _ => .error .fuel
  | fuel + 1, curr, st => do
      if !hasPages order st then return st
      let curr ← deref curr
      match ← scan z order st (fuel + 1) curr with
      | none => return st
      | some curr =>
          let currPage := st.pfndb (z.pageFor curr)
          bugOn currPage.allocated
          bugOn (currPage.order != order)
          let buddy := tohh z.hhdm (currPage.nextPaddr <<< pageBits % 2 ^ 64)
          let buddyPage := st.pfndb (z.pageFor buddy)
          if buddyPage.allocated || buddyPage.order != order then
            match (st.mem curr).next with
            | none => return st
            | some next => coalesceOrder z order fuel (some next) st
          else
            let st := merge z order curr buddy st
            coalesceOrder z order fuel (st.lists order) st

/-- The `for` loop of `coalesce_to` over the orders below `target`, from `order` on. -/
def coalesceFrom (z : Zone) (fuel : ℕ) (order : ℕ) : ℕ → State → Except Stop State
  | 0, st => .ok st
  | left + 1, st => do
      let st ← coalesceOrder z order fuel (st.lists order) st
      coalesceFrom z fuel (order + 1) left st

def coalesceTo (z : Zone) (fuel target : ℕ) (st : State) : Except Stop State :=
  coalesceFrom z fuel 0 (min target maxOrder) st

/-! ## `free` and `alloc` -/

/-- `free` for a legal order. -/
def freeOrder (z : Zone) (ptr order : ℕ) (st : State) : Except Stop State := do
  let idx := z.pageFor ptr
  bugOn (!(st.pfndb idx).allocated)
  bugOn ((st.pfndb idx).order != order)
  let st := st.setPage idx ((st.pfndb idx).setAllocated false)
  return put order (tohh z.hhdm ptr) st

/-- `free` returns the number of bytes it took back. -/
def free (z : Zone) (ptr npages : ℕ) (st : State) : Except Stop (State × ℕ) := do
  let size := npages * pageSize % 2 ^ 64
  let order := nextOrderFrom size
  if order < 0 ∨ maxOrder < order.toNat then return (st, 0)
  let st ← freeOrder z ptr order.toNat st
  return (st, size)

/-- The part of `alloc` before the label `found`: make sure that `lists[order]` has a block; `false`
is the early return of a null pointer. -/
def ensure (z : Zone) (fuel order : ℕ) (st : State) : Except Stop (State × Bool) := do
  if hasPages order st then return (st, true)
  if order = maxOrder then
    let st ← coalesceTo z fuel maxOrder st
    return (st, hasPages order st)
  let st ← splitTo z order st
  if hasPages order st then return (st, true)
  if order ≠ 0 then
    let st ← coalesceTo z fuel order st
    return (st, hasPages order st)
  return (st, false)

/-- The part of `alloc` from the label `found` on. -/
def takeFirst (z : Zone) (order : ℕ) (st : State) : Except Stop (State × ℕ) := do
  let (st, ret) ← rem order st
  let idx := z.pageFor ret
  bugOn (st.pfndb idx).allocated
  bugOn ((st.pfndb idx).order != order)
  return (st.setPage idx ((st.pfndb idx).setAllocated true), ret)

/-- `alloc` for a legal order. -/
def allocOrder (z : Zone) (fuel order : ℕ) (st : State) :
    Except Stop (State × Option ℕ × ℕ) := do
  let (st, found) ← ensure z fuel order st
  if found then
    let (st, ret) ← takeFirst z order st
    return (st, some ret, blockBytes order)
  else return (st, none, 0)

/-- `alloc` returns the direct map address of a block and its size in bytes. -/
def alloc (z : Zone) (fuel npages : ℕ) (st : State) : Except Stop (State × Option ℕ × ℕ) :=
  let size := npages * pageSize % 2 ^ 64
  let order := nextOrderFrom size
  if order < 0 ∨ maxOrder < order.toNat then .ok (st, none, 0)
  else allocOrder z fuel order.toNat st

end Ilobilix.Pmm
