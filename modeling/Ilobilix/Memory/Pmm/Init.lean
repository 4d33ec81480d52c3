import Ilobilix.Foundation.Except
import Ilobilix.Memory.Pagemap.Model
import Ilobilix.Memory.Pmm.Accounting

/-!
# The page database during `pmm::init`

The page database lies behind the direct map, and `pfndb_add` maps the part of it for one entry of the
memory map. The memory for that comes from the bootstrap allocator, which takes pages off the end of
the largest entry; once the other entries have been given to the allocator, that entry is replaced by
what is left of it.

The kernel page map is a parameter: what `translate` and `map` of one small page do, and how many pages
`map` takes for its tables. `pfndb_covers` assumes that it keeps what was mapped into it.
-/

namespace Ilobilix.Pmm

open Lib
open Vmm (Memmap)

/-- `sizeof(page)`. -/
def sizeofPage : ℕ := 16

/-- `vmm::kernel_pagemap`. -/
structure KernelPagemap (K : Type) where
  translate : K → ℕ → Option ℕ
  /-- how many times `map` calls `new_table` -/
  tables : K → ℕ → ℕ
  map : K → ℕ → ℕ → Option K

/-- The state that `pmm::init` works on. -/
structure Boot (K : Type) where
  memmaps : List Memmap
  bootstrapMemmapIdx : Option ℕ
  bootstrapMemmap : Memmap
  mem : Memory
  usable : ℕ
  pfndbBase : ℕ
  initialised : Bool
  kernelPagemap : K
  /-- the pages that `pfndb_add` has mapped, with their frames, latest first -/
  mapped : List (ℕ × ℕ)
  /-- the ranges passed to `add_range`, latest first -/
  added : List (ℕ × ℕ)

namespace Boot

variable {K : Type}

def addUsed (s : Boot K) (n : ℕ) : Boot K :=
  { s with mem := { s.mem with used := (s.mem.used + n) % 2 ^ 64 } }

/-- `bootstrap_alloc(1)`. It panics when the memory is used up, or comes from below 1 MiB. -/
def bootstrapAlloc (hhdm : ℕ) (s : Boot K) : Except Stop (Boot K × ℕ) :=
  if s.bootstrapMemmap.length < pageSize then .error .bug
  else
    let ret := (s.bootstrapMemmap.base + s.bootstrapMemmap.length - pageSize) % 2 ^ 64
    if ret < mib 1 then .error .bug
    else
      let left := s.bootstrapMemmap.length - pageSize
      .ok ({ s with bootstrapMemmap := { s.bootstrapMemmap with length := left } }, tohh hhdm ret)

/-- `alloc(1, true)`, which clears the page. -/
def alloc (hhdm fuel : ℕ) (s : Boot K) : Except Stop (Boot K × ℕ) :=
  if s.initialised then
    match Pmm.alloc (ZoneId.normal.zone hhdm) fuel 1 (s.mem.zones .normal) with
    | .error stop => .error stop
    | .ok (st, some ret, bytes) =>
        .ok ({ s with mem := s.mem.setZone .normal st }.addUsed bytes, fromhh hhdm ret)
    | .ok (st, none, _) =>
        let s := { s with mem := s.mem.setZone .normal st }
        if s.bootstrapMemmapIdx.isSome then
          (s.bootstrapAlloc hhdm).map fun r => (r.1.addUsed pageSize, fromhh hhdm r.2)
        else
          (s.mem.allocIn hhdm fuel 1 [.sub4gib]).map fun r => ({ s with mem := r.1 }, r.2.2)
  else (s.bootstrapAlloc hhdm).map fun r => (r.1.addUsed pageSize, fromhh hhdm r.2)

/-- The calls of `new_table`. -/
def newTables (hhdm fuel : ℕ) : ℕ → Boot K → Except Stop (Boot K)
  | 0, s => .ok s
  | n + 1, s => s.alloc hhdm fuel >>= fun r => newTables hhdm fuel n r.1

/-- The end of the loop body of `pfndb_add`: a new page for `vaddr`. -/
def mapPage (P : KernelPagemap K) (hhdm fuel vaddr : ℕ) (s : Boot K) : Except Stop (Boot K) := do
  let (s, paddr) ← s.alloc hhdm fuel
  let s ← s.newTables hhdm fuel (P.tables s.kernelPagemap vaddr)
  match P.map s.kernelPagemap vaddr paddr with
  | none => .error .bug
  | some k => return { s with kernelPagemap := k, mapped := (vaddr, paddr) :: s.mapped }

/-- The loop body of `pfndb_add`. -/
def pfndbPage (P : KernelPagemap K) (hhdm fuel idx vaddr : ℕ) (s : Boot K) : Except Stop (Boot K) :=
  if s.bootstrapMemmapIdx = some idx ∧ s.bootstrapMemmap.length < pageSize * 5 then .error .bug
  else
    match P.translate s.kernelPagemap vaddr with
    | some ret => if ret ≠ 0 then .ok s else s.mapPage P hhdm fuel vaddr
    | none => s.mapPage P hhdm fuel vaddr

/-- The loop of `pfndb_add`. Each turn goes on by a page, so the number of pages up to `stop` is enough
turns. -/
def pfndbLoop (P : KernelPagemap K) (hhdm fuel idx stop : ℕ) : ℕ → ℕ → Boot K → Except Stop (Boot K)
  | 0, _, s => .ok s
  | left + 1, vaddr, s =>
      if vaddr < stop then
        s.pfndbPage P hhdm fuel idx vaddr >>=
          pfndbLoop P hhdm fuel idx stop left ((vaddr + pageSize) % 2 ^ 64)
      else .ok s

/-- `page_for`, as an address. -/
def pageFor (hhdm : ℕ) (s : Boot K) (addr : ℕ) : ℕ :=
  (s.pfndbBase + fromhh hhdm addr / pageSize * sizeofPage) % 2 ^ 64

/-- `pfndb_add`, where `extra` is the `page_size` that is added to `max_length`. -/
def pfndbAdd (P : KernelPagemap K) (hhdm fuel extra idx : ℕ) (s : Boot K) : Except Stop (Boot K) :=
  match s.memmaps[idx]? with
  | none => .error .nullptr
  | some memmap =>
      let vstart := alignDown (s.pageFor hhdm memmap.base) pageSize
      let maxLength := (alignUp (memmap.length / pageSize * sizeofPage) pageSize + extra) % 2 ^ 64
      let stop := (vstart + maxLength) % 2 ^ 64
      s.pfndbLoop P hhdm fuel idx stop ((stop - vstart + pageSize - 1) / pageSize) vstart

/-- The lambda `check_and_add` of `add_range`, with `wasted`. -/
def checkAndAdd (hhdm base size : ℕ) (r : Boot K × ℕ) (id : ZoneId) : Except Stop (Boot K × ℕ) := do
  let (s, wasted) := r
  let z := id.zone hhdm
  let (start, stop) := rangeIntersection base ((base + size) % 2 ^ 64) z.start z.stop
  if start < stop then
    let (st, ret) := Pmm.addRange z start (stop - start) (s.mem.zones id)
    bugOn (ret == stop - start)
    return ({ s with mem := s.mem.setZone id st }, wasted + ret)
  else return (s, wasted)

/-- The zones of a range. -/
def addZones (hhdm base size : ℕ) (s : Boot K) : Except Stop (Boot K) := do
  let (s, wasted) ← [ZoneId.sub1mib, .sub4gib, .normal].foldlM (checkAndAdd hhdm base size) (s, 0)
  return s.addUsed wasted

/-- `add_range` with `freeing` false. -/
def addRange (hhdm base size : ℕ) (s : Boot K) : Except Stop (Boot K) :=
  let s := { s with added := (base, size) :: s.added }
  if size = 0 then .ok s
  else
    let s := { s with usable := (s.usable + size) % 2 ^ 64 }
    if size < pageSize then .ok (s.addUsed size)
    else if base = 0 then
      if size < pageSize * 2 then .ok s
      else (s.addUsed pageSize).addZones hhdm (base + pageSize) (size - pageSize)
    else s.addZones hhdm base size

/-- `mem.top`. -/
def top (memmaps : List Memmap) : ℕ :=
  memmaps.foldl (fun top memmap => max top ((memmap.base + memmap.length) % 2 ^ 64)) 0

/-- A turn of the first loop of `init`. -/
def initPfndb (P : KernelPagemap K) (hhdm fuel extra : ℕ) (s : Boot K) (i : ℕ) : Except Stop (Boot K) :=
  if s.bootstrapMemmapIdx = some i then .ok s
  else
    match s.memmaps[i]? with
    | none => .error .nullptr
    | some memmap =>
        if memmap.type = .usable ∨ memmap.type = .bootloader then s.pfndbAdd P hhdm fuel extra i
        else .ok s

/-- A turn of the second loop of `init`. -/
def initRange (hhdm : ℕ) (s : Boot K) (i : ℕ) : Except Stop (Boot K) :=
  if s.bootstrapMemmapIdx = some i then .ok s
  else
    match s.memmaps[i]? with
    | none => .error .nullptr
    | some memmap =>
        if memmap.type = .usable then s.addRange hhdm memmap.base memmap.length
        else if memmap.type = .kernelAndModules ∨ memmap.type = .bootloader then
          .ok { s.addUsed memmap.length with usable := (s.usable + memmap.length) % 2 ^ 64 }
        else .ok s

/-- `init`. -/
def init (P : KernelPagemap K) (hhdm fuel extra : ℕ) (s : Boot K) : Except Stop (Boot K) := do
  let s := { s with pfndbBase := tohh hhdm (alignUp (top s.memmaps) (gib 1)) }
  let s ← (List.range s.memmaps.length).foldlM (initPfndb P hhdm fuel extra) s
  let s ← (List.range s.memmaps.length).foldlM (initRange hhdm) s
  match s.bootstrapMemmapIdx with
  | none => .error .nullptr
  | some idx =>
      let s := { s with initialised := true, memmaps := s.memmaps.set idx s.bootstrapMemmap }
      let s ← s.pfndbAdd P hhdm fuel extra idx
      let s ← s.addRange hhdm s.bootstrapMemmap.base s.bootstrapMemmap.length
      return { s with bootstrapMemmapIdx := none }

end Boot

/-! ## The claims on the page database -/

/-- The kernel page map keeps what was mapped into it, and mapping a page makes no other page appear. -/
structure KernelPagemap.Keeps {K : Type} (P : KernelPagemap K) : Prop where
  same : ∀ {k k' v p}, Vmm.isCanonical v = true → P.map k v p = some k' → P.translate k' v = some p
  keep : ∀ {k k' v p w f}, Vmm.isCanonical v = true → Vmm.isCanonical w = true → w ≠ v →
    P.map k v p = some k' → P.translate k w = some f → P.translate k' w = some f
  new : ∀ {k k' v p w f}, Vmm.isCanonical v = true → Vmm.isCanonical w = true → w ≠ v →
    P.map k v p = some k' → P.translate k' w = some f → f ≠ 0 → P.translate k w = some f

namespace Boot

variable {K : Type}

/-- `pfndb_add` has mapped the page at `v`, and it is still mapped. -/
def HasPage (P : KernelPagemap K) (s : Boot K) (v : ℕ) : Prop :=
  ∃ f, (v, f) ∈ s.mapped ∧ P.translate s.kernelPagemap v = some f

/-- Every byte of the `struct page` of every page of a range is in a page that `pfndb_add` has
mapped. -/
def Covered (P : KernelPagemap K) (hhdm : ℕ) (s : Boot K) (base size : ℕ) : Prop :=
  ∀ p, base ≤ p * pageSize → (p + 1) * pageSize ≤ base + size → ∀ j < sizeofPage,
    s.HasPage P (alignDown ((s.pageFor hhdm (p * pageSize) + j) % 2 ^ 64) pageSize)

/-- What `vmm::init` leaves, on a memory map of page aligned and disjoint entries. -/
structure Ready (s : Boot K) : Prop where
  aligned : ∀ m ∈ s.memmaps, pageSize ∣ m.base ∧ pageSize ∣ m.length
  disjoint : s.memmaps.Pairwise fun a b => a.base + a.length ≤ b.base ∨ b.base + b.length ≤ a.base
  bootstrap : ∃ i m, s.bootstrapMemmapIdx = some i ∧ s.memmaps[i]? = some m ∧ m.type = .usable ∧
    s.bootstrapMemmap.base = m.base ∧ s.bootstrapMemmap.length ≤ m.length
  initialised : s.initialised = false
  mapped : s.mapped = []
  added : s.added = []

/-- Where the page database begins, and where it ends at the latest. -/
def pfndbStart (hhdm : ℕ) (s : Boot K) : ℕ := alignUp (top s.memmaps) (gib 1) + hhdm

def pfndbStop (hhdm : ℕ) (s : Boot K) : ℕ :=
  s.pfndbStart hhdm + top s.memmaps / pageSize * sizeofPage + 2 * pageSize

/-- The addresses have room for the page database, and nothing is mapped there yet. -/
structure Room (P : KernelPagemap K) (hhdm : ℕ) (s : Boot K) : Prop where
  entries : ∀ m ∈ s.memmaps, m.base + m.length < 2 ^ 64
  database : s.pfndbStop hhdm < 2 ^ 64
  free : ∀ v, s.pfndbStart hhdm ≤ v → v < s.pfndbStop hhdm → ∀ f ≠ 0,
    P.translate s.kernelPagemap v ≠ some f

/-! ## Steps that map nothing -/

/-- What no step of `init` changes before the bootstrap entry is replaced. -/
structure Frame (s s' : Boot K) : Prop where
  memmaps : s'.memmaps = s.memmaps
  idx : s'.bootstrapMemmapIdx = s.bootstrapMemmapIdx
  base : s'.bootstrapMemmap.base = s.bootstrapMemmap.base
  length_le : s'.bootstrapMemmap.length ≤ s.bootstrapMemmap.length
  pfndbBase : s'.pfndbBase = s.pfndbBase

theorem Frame.refl (s : Boot K) : Frame s s := ⟨rfl, rfl, rfl, le_rfl, rfl⟩

theorem Frame.trans {s₁ s₂ s₃ : Boot K} (h₁ : Frame s₁ s₂) (h₂ : Frame s₂ s₃) : Frame s₁ s₃ :=
  ⟨h₂.memmaps.trans h₁.memmaps, h₂.idx.trans h₁.idx, h₂.base.trans h₁.base,
    h₂.length_le.trans h₁.length_le, h₂.pfndbBase.trans h₁.pfndbBase⟩

/-- The steps that take memory, but neither map a page nor add a range. -/
structure Quiet (s s' : Boot K) : Prop extends Frame s s' where
  kernelPagemap : s'.kernelPagemap = s.kernelPagemap
  mapped : s'.mapped = s.mapped
  added : s'.added = s.added

theorem Quiet.refl (s : Boot K) : Quiet s s := ⟨.refl s, rfl, rfl, rfl⟩

theorem Quiet.trans {s₁ s₂ s₃ : Boot K} (h₁ : Quiet s₁ s₂) (h₂ : Quiet s₂ s₃) : Quiet s₁ s₃ :=
  ⟨h₁.toFrame.trans h₂.toFrame, h₂.kernelPagemap.trans h₁.kernelPagemap, h₂.mapped.trans h₁.mapped,
    h₂.added.trans h₁.added⟩

section Steps

variable {P : KernelPagemap K} {hhdm fuel : ℕ} {s s' : Boot K}

theorem quiet_addUsed (s : Boot K) (n : ℕ) : Quiet s (s.addUsed n) :=
  ⟨⟨rfl, rfl, rfl, le_rfl, rfl⟩, rfl, rfl, rfl⟩

theorem quiet_setMem (s : Boot K) (mem : Memory) : Quiet s { s with mem := mem } :=
  ⟨⟨rfl, rfl, rfl, le_rfl, rfl⟩, rfl, rfl, rfl⟩

theorem quiet_setLength (s : Boot K) {left : ℕ} (h : left ≤ s.bootstrapMemmap.length) :
    Quiet s { s with bootstrapMemmap := { s.bootstrapMemmap with length := left } } :=
  ⟨⟨rfl, rfl, rfl, h, rfl⟩, rfl, rfl, rfl⟩

theorem quiet_bootstrapAlloc {p : ℕ} (h : s.bootstrapAlloc hhdm = .ok (s', p)) : Quiet s s' := by
  rw [bootstrapAlloc] at h
  split at h
  · cases h
  · dsimp only at h
    split at h
    · cases h
    · rw [← (Prod.mk.inj (Except.ok.inj h)).1]
      exact quiet_setLength s (Nat.sub_le _ _)

theorem quiet_alloc {p : ℕ} (h : s.alloc hhdm fuel = .ok (s', p)) : Quiet s s' := by
  have hbootstrap : ∀ {s₁ : Boot K}, (s₁.bootstrapAlloc hhdm).map
      (fun r => (r.1.addUsed pageSize, fromhh hhdm r.2)) = .ok (s', p) → Quiet s₁ s' := by
    intro s₁ h
    obtain ⟨⟨s₂, q⟩, hq, heq⟩ := Except.map_eq_ok_iff.mp h
    cases heq
    exact (quiet_bootstrapAlloc hq).trans (quiet_addUsed s₂ pageSize)
  rw [alloc] at h
  split at h
  · split at h
    · cases h
    · cases h
      exact (quiet_setMem s _).trans (quiet_addUsed _ _)
    · dsimp only at h
      split at h
      · exact (quiet_setMem s _).trans (hbootstrap h)
      · obtain ⟨r, -, heq⟩ := Except.map_eq_ok_iff.mp h
        rw [← (Prod.mk.inj heq).1]
        exact (quiet_setMem s _).trans (quiet_setMem _ _)
  · exact hbootstrap h

theorem quiet_newTables {n : ℕ} (h : s.newTables hhdm fuel n = .ok s') : Quiet s s' := by
  induction n generalizing s with
  | zero =>
      cases h
      exact .refl _
  | succ n ih =>
      obtain ⟨r, hr, h⟩ := Except.bind_eq_ok_iff.mp h
      exact (quiet_alloc hr).trans (ih h)

end Steps

/-! ## Steps that map pages -/

/-- The pages mapped so far lie in the database and are still mapped, and nothing else is mapped
there. -/
structure Inv (P : KernelPagemap K) (lo hi : ℕ) (s : Boot K) : Prop where
  range : ∀ e ∈ s.mapped, lo ≤ e.1 ∧ e.1 < hi
  kept : ∀ e ∈ s.mapped, s.HasPage P e.1
  found : ∀ v, lo ≤ v → v < hi → ∀ f ≠ 0, P.translate s.kernelPagemap v = some f → (v, f) ∈ s.mapped

/-- Further pages of the database get mapped. -/
structure Maps (P : KernelPagemap K) (lo hi : ℕ) (s s' : Boot K) : Prop extends Frame s s' where
  inv : s'.Inv P lo hi
  keep : ∀ v, s.HasPage P v → s'.HasPage P v
  added : s'.added = s.added

section Maps

variable {P : KernelPagemap K} {hhdm fuel idx lo hi : ℕ} {s s' : Boot K}

theorem Maps.refl (h : s.Inv P lo hi) : s.Maps P lo hi s := ⟨.refl s, h, fun _ => id, rfl⟩

theorem Maps.trans {s₁ s₂ s₃ : Boot K} (h₁ : s₁.Maps P lo hi s₂) (h₂ : s₂.Maps P lo hi s₃) :
    s₁.Maps P lo hi s₃ :=
  ⟨h₁.toFrame.trans h₂.toFrame, h₂.inv, fun v hv => h₂.keep v (h₁.keep v hv),
    h₂.added.trans h₁.added⟩

theorem Quiet.maps (h : Quiet s s') (hinv : s.Inv P lo hi) : s.Maps P lo hi s' := by
  have hpage : ∀ v, s.HasPage P v → s'.HasPage P v := by
    rintro v ⟨f, hf, ht⟩
    exact ⟨f, h.mapped.symm ▸ hf, h.kernelPagemap.symm ▸ ht⟩
  refine ⟨h.toFrame, ⟨?_, fun e he => ?_, ?_⟩, hpage, h.added⟩
  · rw [h.mapped]
    exact hinv.range
  · rw [h.mapped] at he
    exact hpage _ (hinv.kept e he)
  · rw [h.mapped, h.kernelPagemap]
    exact hinv.found

theorem canonical_of_le (hlo : 0xFFFF800000000000 ≤ lo) {v : ℕ} (hv : lo ≤ v) :
    Vmm.isCanonical v = true := by
  simp only [Vmm.isCanonical, Bool.or_eq_true, decide_eq_true_eq]
  omega

/-- A page that was mapped just now is logged, and the other pages are as before. -/
theorem Inv.map (hP : P.Keeps) (hlo : 0xFFFF800000000000 ≤ lo) (h : s.Inv P lo hi) {v p : ℕ}
    (hv : lo ≤ v) (hvhi : v < hi) {k : K} (hmap : P.map s.kernelPagemap v p = some k) :
    s.Maps P lo hi { s with kernelPagemap := k, mapped := (v, p) :: s.mapped } ∧
      HasPage P { s with kernelPagemap := k, mapped := (v, p) :: s.mapped } v := by
  have hcv := canonical_of_le hlo hv
  have hnew : HasPage P { s with kernelPagemap := k, mapped := (v, p) :: s.mapped } v :=
    ⟨p, List.mem_cons_self, hP.same hcv hmap⟩
  have hkeep : ∀ w, s.HasPage P w →
      HasPage P { s with kernelPagemap := k, mapped := (v, p) :: s.mapped } w := by
    rintro w ⟨f, hf, ht⟩
    by_cases hwv : w = v
    · exact hwv ▸ hnew
    · have hcw := canonical_of_le hlo (h.range _ hf).1
      exact ⟨f, List.mem_cons_of_mem _ hf, hP.keep hcv hcw hwv hmap ht⟩
  refine ⟨⟨⟨rfl, rfl, rfl, le_rfl, rfl⟩, ⟨fun e he => ?_, fun e he => ?_, fun w hw hwhi f hf ht => ?_⟩,
    hkeep, rfl⟩, hnew⟩
  · rcases List.mem_cons.mp he with rfl | he
    · exact ⟨hv, hvhi⟩
    · exact h.range e he
  · rcases List.mem_cons.mp he with rfl | he
    · exact hnew
    · exact hkeep _ (h.kept e he)
  · by_cases hwv : w = v
    · subst hwv
      rw [hP.same hcv hmap, Option.some.injEq] at ht
      exact ht ▸ List.mem_cons_self
    · exact List.mem_cons_of_mem _
        (h.found w hw hwhi f hf (hP.new hcv (canonical_of_le hlo hw) hwv hmap ht hf))

theorem mapPage_spec (hP : P.Keeps) (hlo : 0xFFFF800000000000 ≤ lo) (h : s.Inv P lo hi) {v : ℕ}
    (hv : lo ≤ v) (hvhi : v < hi) (hrun : s.mapPage P hhdm fuel v = .ok s') :
    s.Maps P lo hi s' ∧ s'.HasPage P v := by
  obtain ⟨⟨s₁, p⟩, halloc, hrun⟩ := Except.bind_eq_ok_iff.mp hrun
  obtain ⟨s₂, htables, hrun⟩ := Except.bind_eq_ok_iff.mp hrun
  have hmaps := ((quiet_alloc halloc).trans (quiet_newTables htables)).maps h
  split at hrun
  · cases hrun
  · rename_i k hk
    obtain rfl := Except.ok.inj hrun
    obtain ⟨hmap, hpage⟩ := hmaps.inv.map hP hlo hv hvhi hk
    exact ⟨hmaps.trans hmap, hpage⟩

/-- A turn of the loop of `pfndb_add`. -/
theorem pfndbPage_spec (hP : P.Keeps) (hlo : 0xFFFF800000000000 ≤ lo) (h : s.Inv P lo hi) {v : ℕ}
    (hv : lo ≤ v) (hvhi : v < hi) (hrun : s.pfndbPage P hhdm fuel idx v = .ok s') :
    s.Maps P lo hi s' ∧ s'.HasPage P v := by
  rw [pfndbPage] at hrun
  split at hrun
  · cases hrun
  · split at hrun
    · rename_i ret hret
      split at hrun
      · rename_i hne
        obtain rfl := Except.ok.inj hrun
        -- the page was mapped for another entry
        exact ⟨.refl h, h.kept _ (h.found v hv hvhi ret hne hret)⟩
      · exact mapPage_spec hP hlo h hv hvhi hrun
    · exact mapPage_spec hP hlo h hv hvhi hrun

theorem pfndbLoop_spec (hP : P.Keeps) (hlo : 0xFFFF800000000000 ≤ lo) {stop : ℕ} (hstop : stop ≤ hi)
    {left : ℕ} : ∀ {v : ℕ} {s : Boot K}, s.Inv P lo hi → lo ≤ v → v + left * pageSize < 2 ^ 64 →
      s.pfndbLoop P hhdm fuel idx stop left v = .ok s' →
      s.Maps P lo hi s' ∧ ∀ k < left, v + k * pageSize < stop → s'.HasPage P (v + k * pageSize) := by
  induction left with
  | zero =>
      intro v s h _ _ hrun
      obtain rfl := Except.ok.inj hrun
      exact ⟨.refl h, fun k hk => absurd hk (Nat.not_lt_zero k)⟩
  | succ left ih =>
      intro v s h hv hend hrun
      rw [Nat.add_one_mul] at hend
      rw [pfndbLoop] at hrun
      split at hrun
      · rename_i hlt
        obtain ⟨s₁, hpage, hrun⟩ := Except.bind_eq_ok_iff.mp hrun
        obtain ⟨hmaps, hself⟩ := pfndbPage_spec hP hlo h hv (hlt.trans_le hstop) hpage
        rw [Nat.mod_eq_of_lt (by omega)] at hrun
        obtain ⟨hmaps', hrest⟩ := ih hmaps.inv (by omega) (by omega) hrun
        refine ⟨hmaps.trans hmaps', fun k hk hks => ?_⟩
        rcases k with - | k
        · rw [Nat.zero_mul, Nat.add_zero]
          exact hmaps'.keep v hself
        · have hnext : v + (k + 1) * pageSize = v + pageSize + k * pageSize := by
            rw [Nat.add_one_mul]
            omega
          rw [hnext] at hks ⊢
          exact hrest k (Nat.lt_of_succ_lt_succ hk) hks
      · rename_i hge
        obtain rfl := Except.ok.inj hrun
        exact ⟨.refl h, fun k _ hk => absurd ((Nat.le_add_right v (k * pageSize)).trans_lt hk) hge⟩

theorem pageFor_eq (hbase : s.pfndbBase = lo) {addr : ℕ} (haddr : addr < hhdm)
    (hfits : lo + addr / pageSize * sizeofPage < 2 ^ 64) :
    s.pageFor hhdm addr = lo + addr / pageSize * sizeofPage := by
  have hphys : fromhh hhdm addr = addr := by
    rw [fromhh, ishh, if_pos (by simpa using haddr)]
  rw [pageFor, hphys, hbase, Nat.mod_eq_of_lt hfits]

theorem alignDown_page {n : ℕ} (hn : n < 2 ^ 64) : alignDown n pageSize = n / 4096 * 4096 := by
  have h := alignDown_two_pow hn (by decide : 12 < 64)
  exact h

theorem alignUp_page {n : ℕ} (hn : n + 4096 ≤ 2 ^ 64) :
    alignUp n pageSize = (n + 4095) / 4096 * 4096 := by
  have h := alignUp_two_pow (by decide : 12 < 64) hn
  rw [show n + 2 ^ 12 - 1 = n + 4095 by omega] at h
  exact h

theorem Maps.covered (h : s.Maps P lo hi s') {base size : ℕ} (hc : s.Covered P hhdm base size) :
    s'.Covered P hhdm base size := by
  intro p hp hp' j hj
  have hpage := h.keep _ (hc p hp hp' j hj)
  rwa [pageFor, ← h.pfndbBase, ← pageFor] at hpage

/-- Where an entry of the memory map lies, and its part of the database. -/
structure Placed (hhdm lo hi : ℕ) (m : Memmap) : Prop where
  aligned : pageSize ∣ m.base
  below : m.base + m.length < hhdm
  stop_le : lo + (m.base + m.length) / pageSize * sizeofPage + 2 * pageSize ≤ hi

/-- `pfndb_add` maps the whole part of the database for an entry: `vstart` lies up to a page below the
first `struct page`, which is what the extra page makes up for. -/
theorem pfndbAdd_spec (hP : P.Keeps) (hlo : 0xFFFF800000000000 ≤ lo) (hpage : pageSize ∣ lo)
    (hhi : hi < 2 ^ 64) (h : s.Inv P lo hi) (hbase : s.pfndbBase = lo) {m : Memmap}
    (hm : s.memmaps[idx]? = some m) (hplaced : Placed hhdm lo hi m)
    (hrun : s.pfndbAdd P hhdm fuel pageSize idx = .ok s') :
    s.Maps P lo hi s' ∧ s'.Covered P hhdm m.base m.length := by
  obtain ⟨hmbase, hbelow, hend⟩ := hplaced
  simp only [pageSize, sizeofPage] at hpage hmbase hend
  have hpg : s.pageFor hhdm m.base = lo + m.base / 4096 * 16 :=
    pageFor_eq hbase (by omega) (by simp only [pageSize, sizeofPage]; omega)
  have hdown := alignDown_page (n := lo + m.base / 4096 * 16) (by omega)
  have hup := alignUp_page (n := m.length / 4096 * 16) (by omega)
  rw [pfndbAdd, hm] at hrun
  dsimp only at hrun
  rw [hpg, hdown, show m.length / pageSize * sizeofPage = m.length / 4096 * 16 from rfl, hup] at hrun
  -- neither the length nor the end wraps around
  obtain ⟨vstart, hvstart⟩ : ∃ v, v = (lo + m.base / 4096 * 16) / 4096 * 4096 := ⟨_, rfl⟩
  rw [← hvstart] at hrun
  have hlength : ((m.length / 4096 * 16 + 4095) / 4096 * 4096 + pageSize) % 2 ^ 64 =
      (m.length / 4096 * 16 + 4095) / 4096 * 4096 + 4096 :=
    Nat.mod_eq_of_lt (by simp only [pageSize]; omega)
  obtain ⟨stop, hstop⟩ : ∃ v, v = vstart + ((m.length / 4096 * 16 + 4095) / 4096 * 4096 + 4096) :=
    ⟨_, rfl⟩
  have hstophi : stop ≤ hi := by omega
  rw [hlength, ← hstop, Nat.mod_eq_of_lt (hstophi.trans_lt hhi)] at hrun
  have hleft : (stop - vstart + pageSize - 1) / pageSize = (stop - vstart) / 4096 := by
    simp only [pageSize]
    omega
  rw [hleft] at hrun
  obtain ⟨hmaps, hpages⟩ := pfndbLoop_spec hP hlo hstophi h (by omega)
    (by simp only [pageSize]; omega) hrun
  refine ⟨hmaps, fun p hp hp' j hj => ?_⟩
  simp only [pageSize, sizeofPage] at hp hp' hj
  have hfor : s'.pageFor hhdm (p * pageSize) = lo + p * 16 := by
    rw [pageFor_eq (hmaps.pfndbBase.trans hbase) (by simp only [pageSize]; omega)
      (by simp only [pageSize, sizeofPage]; omega)]
    simp only [pageSize, sizeofPage]
    omega
  rw [hfor, Nat.mod_eq_of_lt (by omega), alignDown_page (by omega)]
  have hkey := hpages ((lo + p * 16 + j) / 4096 - vstart / 4096) (by omega)
    (by simp only [pageSize]; omega)
  rw [show vstart + ((lo + p * 16 + j) / 4096 - vstart / 4096) * pageSize =
    (lo + p * 16 + j) / 4096 * 4096 by simp only [pageSize]; omega] at hkey
  exact hkey

/-- The first loop of `init`. -/
theorem initPfndb_spec (hP : P.Keeps) (hlo : 0xFFFF800000000000 ≤ lo) (hpage : pageSize ∣ lo)
    (hhi : hi < 2 ^ 64) {l : List ℕ} : ∀ {s : Boot K}, s.Inv P lo hi → s.pfndbBase = lo →
      (∀ m ∈ s.memmaps, Placed hhdm lo hi m) →
      l.foldlM (initPfndb P hhdm fuel pageSize) s = .ok s' →
      s.Maps P lo hi s' ∧ ∀ i ∈ l, s.bootstrapMemmapIdx ≠ some i → ∀ m, s.memmaps[i]? = some m →
        m.type = .usable ∨ m.type = .bootloader → s'.Covered P hhdm m.base m.length := by
  induction l with
  | nil =>
      intro s h _ _ hrun
      obtain rfl := Except.ok.inj hrun
      exact ⟨.refl h, fun i hi => by cases hi⟩
  | cons i l ih =>
      intro s h hbase hplaced hrun
      rw [List.foldlM_cons] at hrun
      obtain ⟨s₁, hturn, hrun⟩ := Except.bind_eq_ok_iff.mp hrun
      have hstep : s.Maps P lo hi s₁ ∧ (s.bootstrapMemmapIdx ≠ some i → ∀ m, s.memmaps[i]? = some m →
          m.type = .usable ∨ m.type = .bootloader → s₁.Covered P hhdm m.base m.length) := by
        rw [initPfndb] at hturn
        split at hturn
        · rename_i hidx
          obtain rfl := Except.ok.inj hturn
          exact ⟨.refl h, fun hne => absurd hidx hne⟩
        · split at hturn
          · cases hturn
          · rename_i m hm
            split at hturn
            · obtain ⟨hmaps, hcov⟩ := pfndbAdd_spec hP hlo hpage hhi h hbase hm
                (hplaced m (List.mem_of_getElem? hm)) hturn
              refine ⟨hmaps, fun _ m' hm' _ => ?_⟩
              obtain rfl := Option.some.inj (hm.symm.trans hm')
              exact hcov
            · rename_i htype
              obtain rfl := Except.ok.inj hturn
              refine ⟨.refl h, fun _ m' hm' ht => absurd ?_ htype⟩
              obtain rfl := Option.some.inj (hm.symm.trans hm')
              exact ht
      obtain ⟨hmaps, hcov⟩ := hstep
      obtain ⟨hmaps', hcov'⟩ := ih hmaps.inv (hmaps.pfndbBase.trans hbase)
        (hmaps.memmaps.symm ▸ hplaced) hrun
      refine ⟨hmaps.trans hmaps', fun j hj hne m hm ht => ?_⟩
      rcases List.mem_cons.mp hj with rfl | hj
      · exact hmaps'.covered (hcov hne m hm ht)
      · exact hcov' j hj (hmaps.idx.symm ▸ hne) m (hmaps.memmaps.symm ▸ hm) ht

end Maps

/-! ## Steps that add ranges -/

section Adds

variable {P : KernelPagemap K} {hhdm lo hi : ℕ} {s s' : Boot K}

theorem quiet_checkAndAdd {base size wasted wasted' : ℕ} {id : ZoneId}
    (h : checkAndAdd hhdm base size (s, wasted) id = .ok (s', wasted')) : Quiet s s' := by
  rw [checkAndAdd] at h
  dsimp only at h
  split at h
  · obtain ⟨-, -, h⟩ := Except.bind_eq_ok_iff.mp h
    obtain ⟨rfl, -⟩ := Prod.mk.inj (Except.ok.inj h)
    exact quiet_setMem s _
  · obtain ⟨rfl, -⟩ := Prod.mk.inj (Except.ok.inj h)
    exact .refl s

theorem quiet_zones {base size : ℕ} {ids : List ZoneId} : ∀ {s : Boot K} {wasted wasted' : ℕ},
    ids.foldlM (checkAndAdd hhdm base size) (s, wasted) = .ok (s', wasted') → Quiet s s' := by
  induction ids with
  | nil =>
      intro s wasted wasted' h
      obtain ⟨rfl, -⟩ := Prod.mk.inj (Except.ok.inj h)
      exact .refl _
  | cons id ids ih =>
      intro s wasted wasted' h
      rw [List.foldlM_cons] at h
      obtain ⟨⟨s₁, w₁⟩, hid, h⟩ := Except.bind_eq_ok_iff.mp h
      exact (quiet_checkAndAdd hid).trans (ih h)

theorem quiet_addZones {base size : ℕ} (h : s.addZones hhdm base size = .ok s') : Quiet s s' := by
  rw [addZones] at h
  obtain ⟨⟨s₁, wasted⟩, hzones, h⟩ := Except.bind_eq_ok_iff.mp h
  obtain rfl := Except.ok.inj h
  exact (quiet_zones hzones).trans (quiet_addUsed s₁ wasted)

theorem quiet_setUsable (s : Boot K) (n : ℕ) : Quiet s { s with usable := n } :=
  ⟨⟨rfl, rfl, rfl, le_rfl, rfl⟩, rfl, rfl, rfl⟩

/-- `add_range` maps nothing. -/
theorem addRange_spec {base size : ℕ} (h : s.addRange hhdm base size = .ok s') :
    Quiet { s with added := (base, size) :: s.added } s' := by
  rw [addRange] at h
  dsimp only at h
  split at h
  · obtain rfl := Except.ok.inj h
    exact .refl _
  · refine (quiet_setUsable _ ((s.usable + size) % 2 ^ 64)).trans ?_
    split at h
    · obtain rfl := Except.ok.inj h
      exact quiet_addUsed _ size
    · split at h
      · split at h
        · obtain rfl := Except.ok.inj h
          exact .refl _
        · exact (quiet_addUsed _ pageSize).trans (quiet_addZones h)
      · exact quiet_addZones h

/-- Every range given to `add_range` so far has its part of the database. -/
def AllCovered (P : KernelPagemap K) (hhdm : ℕ) (s : Boot K) : Prop :=
  ∀ r ∈ s.added, s.Covered P hhdm r.1 r.2

theorem Covered.mono {base size base' size' : ℕ} (h : s.Covered P hhdm base size) (hb : base ≤ base')
    (hs : base' + size' ≤ base + size) : s.Covered P hhdm base' size' :=
  fun p hp hp' j hj => h p (hb.trans hp) (hp'.trans hs) j hj

/-- Ranges of the database get added. -/
structure Adds (P : KernelPagemap K) (hhdm lo hi : ℕ) (s s' : Boot K) : Prop extends Frame s s' where
  inv : s'.Inv P lo hi
  keep : ∀ base size, s.Covered P hhdm base size → s'.Covered P hhdm base size
  all : s'.AllCovered P hhdm

theorem Adds.refl (h : s.Inv P lo hi) (hall : s.AllCovered P hhdm) : s.Adds P hhdm lo hi s :=
  ⟨.refl s, h, fun _ _ => id, hall⟩

theorem Adds.trans {s₁ s₂ s₃ : Boot K} (h₁ : s₁.Adds P hhdm lo hi s₂) (h₂ : s₂.Adds P hhdm lo hi s₃) :
    s₁.Adds P hhdm lo hi s₃ :=
  ⟨h₁.toFrame.trans h₂.toFrame, h₂.inv, fun b n hc => h₂.keep b n (h₁.keep b n hc), h₂.all⟩

theorem Quiet.adds (h : Quiet s s') (hinv : s.Inv P lo hi) (hall : s.AllCovered P hhdm) :
    s.Adds P hhdm lo hi s' := by
  have hmaps := h.maps hinv
  refine ⟨h.toFrame, hmaps.inv, fun _ _ => hmaps.covered, fun r hr => ?_⟩
  rw [h.added] at hr
  exact hmaps.covered (hall r hr)

theorem addRange_adds {base size : ℕ} (hinv : s.Inv P lo hi) (hall : s.AllCovered P hhdm)
    (hcov : s.Covered P hhdm base size) (h : s.addRange hhdm base size = .ok s') :
    s.Adds P hhdm lo hi s' := by
  have hinv' : Inv P lo hi { s with added := (base, size) :: s.added } :=
    ⟨hinv.range, hinv.kept, hinv.found⟩
  have hadded : AllCovered P hhdm { s with added := (base, size) :: s.added } := by
    intro r hr
    rcases List.mem_cons.mp hr with rfl | hr
    · exact hcov
    · exact hall r hr
  have hadds := (addRange_spec h).adds hinv' hadded
  exact ⟨⟨hadds.memmaps, hadds.idx, hadds.base, hadds.length_le, hadds.pfndbBase⟩, hadds.inv,
    hadds.keep, hadds.all⟩

/-- The second loop of `init`. -/
theorem initRange_spec {l : List ℕ} : ∀ {s : Boot K}, s.Inv P lo hi → s.AllCovered P hhdm →
    (∀ i ∈ l, s.bootstrapMemmapIdx ≠ some i → ∀ m, s.memmaps[i]? = some m → m.type = .usable →
      s.Covered P hhdm m.base m.length) →
    l.foldlM (initRange hhdm) s = .ok s' → s.Adds P hhdm lo hi s' := by
  induction l with
  | nil =>
      intro s hinv hall _ hrun
      obtain rfl := Except.ok.inj hrun
      exact .refl hinv hall
  | cons i l ih =>
      intro s hinv hall hcov hrun
      rw [List.foldlM_cons] at hrun
      obtain ⟨s₁, hturn, hrun⟩ := Except.bind_eq_ok_iff.mp hrun
      have hstep : s.Adds P hhdm lo hi s₁ := by
        rw [initRange] at hturn
        split at hturn
        · obtain rfl := Except.ok.inj hturn
          exact .refl hinv hall
        · rename_i hne
          split at hturn
          · cases hturn
          · rename_i m hm
            split at hturn
            · rename_i htype
              exact addRange_adds hinv hall (hcov i List.mem_cons_self hne m hm htype) hturn
            · split at hturn
              · obtain rfl := Except.ok.inj hturn
                exact ((quiet_addUsed s m.length).trans (quiet_setUsable _ _)).adds hinv hall
              · obtain rfl := Except.ok.inj hturn
                exact .refl hinv hall
      refine hstep.trans (ih hstep.inv hstep.all (fun j hj hne m hm ht => ?_) hrun)
      exact hstep.keep _ _ (hcov j (List.mem_cons_of_mem _ hj) (hstep.idx ▸ hne) m
        (hstep.memmaps ▸ hm) ht)

end Adds

/-! ## The whole of `init` -/

section Whole

variable {P : KernelPagemap K} {hhdm fuel : ℕ} {s s' : Boot K}

theorem le_top {memmaps : List Memmap} {m : Memmap} (hm : m ∈ memmaps)
    (hfits : m.base + m.length < 2 ^ 64) : m.base + m.length ≤ top memmaps := by
  have hmono : ∀ (l : List Memmap) (t : ℕ), t ≤
      l.foldl (fun top memmap => max top ((memmap.base + memmap.length) % 2 ^ 64)) t := by
    intro l
    induction l with
    | nil => exact fun t => le_rfl
    | cons a l ih => exact fun t => (le_max_left _ _).trans (ih _)
  rw [top]
  generalize 0 = t
  induction memmaps generalizing t with
  | nil => cases hm
  | cons a l ih =>
      rw [List.foldl_cons]
      rcases List.mem_cons.mp hm with rfl | hm
      · refine le_trans ?_ (hmono l _)
        rw [Nat.mod_eq_of_lt hfits]
        exact le_max_right _ _
      · exact ih hm _

theorem alignUp_gib {n : ℕ} (hn : n + 2 ^ 30 ≤ 2 ^ 64) :
    alignUp n (gib 1) = (n + (2 ^ 30 - 1)) / 2 ^ 30 * 2 ^ 30 := by
  have h := alignUp_two_pow (by decide : 30 < 64) hn
  rw [Nat.add_sub_assoc (by decide)] at h
  exact h

/-- With room for it, the database begins on a page and above every entry of the memory map. -/
theorem Room.layout (h : s.Room P hhdm) (hhigh : 0xFFFF800000000000 ≤ hhdm) (hpage : pageSize ∣ hhdm) :
    tohh hhdm (alignUp (top s.memmaps) (gib 1)) = s.pfndbStart hhdm ∧
      pageSize ∣ s.pfndbStart hhdm ∧ top s.memmaps < hhdm := by
  have hend := h.database
  simp only [pfndbStop, pfndbStart, pageSize, sizeofPage] at hend hpage ⊢
  have hup := alignUp_gib (n := top s.memmaps) (by omega)
  obtain ⟨start, hstart⟩ : ∃ v, v = (top s.memmaps + (2 ^ 30 - 1)) / 2 ^ 30 * 2 ^ 30 := ⟨_, rfl⟩
  rw [hup, ← hstart] at hend ⊢
  have hlt : start < hhdm := by omega
  have hfits : start + hhdm < 2 ^ 64 := by omega
  exact ⟨tohh_of_lt hlt hfits, by omega, by omega⟩

theorem Room.placed (h : s.Room P hhdm) (hhigh : 0xFFFF800000000000 ≤ hhdm) (hpage : pageSize ∣ hhdm)
    {m m' : Memmap} (hm : m ∈ s.memmaps) (haligned : pageSize ∣ m.base) (hbase : m'.base = m.base)
    (hlength : m'.length ≤ m.length) :
    Placed hhdm (s.pfndbStart hhdm) (s.pfndbStop hhdm) m' := by
  have htop := le_top hm (h.entries m hm)
  have hbelow := (h.layout hhigh hpage).2.2
  refine ⟨hbase ▸ haligned, by omega, ?_⟩
  simp only [pfndbStop, pageSize, sizeofPage]
  omega

/-- Every `struct page` of a range that `init` has given to the allocator is mapped. -/
theorem init_covers (hP : P.Keeps) (hhigh : 0xFFFF800000000000 ≤ hhdm) (hpage : pageSize ∣ hhdm)
    (hready : s.Ready) (hroom : s.Room P hhdm) (hrun : s.init P hhdm fuel pageSize = .ok s') :
    s'.AllCovered P hhdm := by
  obtain ⟨hbase, hlodvd, -⟩ := hroom.layout hhigh hpage
  obtain ⟨lo, hlo⟩ : ∃ v, v = s.pfndbStart hhdm := ⟨_, rfl⟩
  obtain ⟨hi, hhi⟩ : ∃ v, v = s.pfndbStop hhdm := ⟨_, rfl⟩
  rw [← hlo] at hbase hlodvd
  have hlohigh : 0xFFFF800000000000 ≤ lo := by
    rw [hlo, pfndbStart]
    exact hhigh.trans (Nat.le_add_left _ _)
  have hhilt : hi < 2 ^ 64 := hhi ▸ hroom.database
  have hplaced : ∀ m ∈ s.memmaps, ∀ m' : Memmap, m'.base = m.base → m'.length ≤ m.length →
      Placed hhdm lo hi m' := fun m hm m' hb hl =>
    hlo ▸ hhi ▸ hroom.placed hhigh hpage hm (hready.aligned m hm).1 hb hl
  rw [init, hbase] at hrun
  dsimp only at hrun
  have hstart : Inv P lo hi { s with pfndbBase := lo } := by
    refine ⟨fun e he => ?_, fun e he => ?_, fun v hv hvhi f hf ht => ?_⟩
    · exact absurd (hready.mapped ▸ he) List.not_mem_nil
    · exact absurd (hready.mapped ▸ he) List.not_mem_nil
    · exact absurd ht (hroom.free v (hlo ▸ hv) (hhi ▸ hvhi) f hf)
  obtain ⟨s₁, hfirst, hrun⟩ := Except.bind_eq_ok_iff.mp hrun
  obtain ⟨hmaps, hentries⟩ := initPfndb_spec hP hlohigh hlodvd hhilt hstart rfl
    (fun m hm => hplaced m hm m rfl le_rfl) hfirst
  obtain ⟨s₂, hsecond, hrun⟩ := Except.bind_eq_ok_iff.mp hrun
  have hnone : s₁.AllCovered P hhdm := by
    intro r hr
    rw [hmaps.added] at hr
    exact absurd (hready.added ▸ hr) List.not_mem_nil
  have hadds := initRange_spec hmaps.inv hnone (fun i hi hne m hm ht =>
    hentries i (hmaps.memmaps ▸ hi) (hmaps.idx ▸ hne) m (hmaps.memmaps ▸ hm) (.inl ht)) hsecond
  -- the bootstrap entry: `pfndb_add` sees as much of it as there is now
  obtain ⟨i, m, hidx, hm, -, hmbase, hmlen⟩ := hready.bootstrap
  have hframe := hmaps.toFrame.trans hadds.toFrame
  split at hrun
  · cases hrun
  rename_i j hj
  obtain rfl := Option.some.inj (hj.symm.trans (hframe.idx.trans hidx))
  obtain ⟨s₃, hpfndb, hrun⟩ := Except.bind_eq_ok_iff.mp hrun
  obtain ⟨s₄, hlast, hrun⟩ := Except.bind_eq_ok_iff.mp hrun
  obtain rfl := Except.ok.inj hrun
  have hentry : (s₂.memmaps.set j s₂.bootstrapMemmap)[j]? = some s₂.bootstrapMemmap := by
    rw [List.getElem?_set_self]
    rw [hframe.memmaps]
    exact (List.getElem?_eq_some_iff.mp hm).1
  have hinv : Inv P lo hi { s₂ with
      initialised := true, memmaps := s₂.memmaps.set j s₂.bootstrapMemmap } :=
    ⟨hadds.inv.range, hadds.inv.kept, hadds.inv.found⟩
  obtain ⟨hmaps', hcov⟩ := pfndbAdd_spec hP hlohigh hlodvd hhilt hinv hframe.pfndbBase hentry
    (hplaced m (List.mem_of_getElem? hm) _ (hframe.base.trans hmbase) (hframe.length_le.trans hmlen))
    hpfndb
  have hall : s₃.AllCovered P hhdm := by
    intro r hr
    rw [hmaps'.added] at hr
    exact hmaps'.covered (hadds.all r hr)
  have hrange : s₃.Covered P hhdm s₃.bootstrapMemmap.base s₃.bootstrapMemmap.length := by
    have hb : s₃.bootstrapMemmap.base = s₂.bootstrapMemmap.base := hmaps'.base
    have hl : s₃.bootstrapMemmap.length ≤ s₂.bootstrapMemmap.length := hmaps'.length_le
    exact hcov.mono hb.ge (by omega)
  exact (addRange_adds hmaps'.inv hall hrange hlast).all

end Whole

/-! ## A kernel page map -/

/-- The pages that are mapped, with the tables of the last two levels. -/
def exampleKernelPagemap : KernelPagemap (List (ℕ × ℕ)) where
  translate k v := (k.find? fun e => e.1 == v).map Prod.snd
  tables k v :=
    (if k.any fun e => e.1 / 2 ^ 21 == v / 2 ^ 21 then 0 else 1) +
      if k.any fun e => e.1 / 2 ^ 30 == v / 2 ^ 30 then 0 else 1
  map k v p := some ((v, p) :: k)

theorem exampleKernelPagemap_keeps : exampleKernelPagemap.Keeps := by
  have hother : ∀ {k k' : List (ℕ × ℕ)} {v p w : ℕ}, w ≠ v → exampleKernelPagemap.map k v p = some k' →
      exampleKernelPagemap.translate k' w = exampleKernelPagemap.translate k w := by
    intro k k' v p w hne h
    obtain rfl := Option.some.inj h
    simp only [exampleKernelPagemap]
    rw [List.find?_cons_of_neg (by simpa using hne.symm)]
  refine ⟨fun {k k' v p} _ h => ?_, fun _ _ hne h ht => (hother hne h).trans ht,
    fun _ _ hne h ht _ => (hother hne h).symm.trans ht⟩
  obtain rfl := Option.some.inj h
  simp [exampleKernelPagemap]

/-- Nothing is mapped yet, and the bootstrap allocator has all of the first entry. -/
def exampleBoot (memmaps : List Memmap) : Boot (List (ℕ × ℕ)) where
  memmaps := memmaps
  bootstrapMemmapIdx := some 0
  bootstrapMemmap := memmaps.headD ⟨0, 0, .other⟩
  mem := ⟨fun _ => State.initial, 0⟩
  usable := 0
  pfndbBase := 0
  initialised := false
  kernelPagemap := []
  mapped := []
  added := []

theorem exampleBoot_ready {m : Memmap} {l : List Memmap} (htype : m.type = .usable)
    (haligned : ∀ a ∈ m :: l, pageSize ∣ a.base ∧ pageSize ∣ a.length)
    (hdisjoint : (m :: l).Pairwise fun a b => a.base + a.length ≤ b.base ∨ b.base + b.length ≤ a.base) :
    (exampleBoot (m :: l)).Ready :=
  ⟨haligned, hdisjoint, ⟨0, m, rfl, rfl, htype, rfl, le_rfl⟩, rfl, rfl, rfl⟩

theorem exampleBoot_room {hhdm : ℕ} {l : List Memmap} (hentries : ∀ a ∈ l, a.base + a.length < 2 ^ 64)
    (hend : (exampleBoot l).pfndbStop hhdm < 2 ^ 64) :
    (exampleBoot l).Room exampleKernelPagemap hhdm :=
  ⟨hentries, hend, fun _ _ _ _ _ h => Option.some_ne_none _ h.symm⟩

/-- The second entry begins with the last page whose `struct page` is in a page of the database. -/
def exampleMemmaps : List Memmap :=
  [⟨0x100000, 0x10000, .usable⟩, ⟨0x2ff000, 0x2000, .usable⟩, ⟨0x400000, 0x2000, .bootloader⟩]

theorem exampleMemmaps_ready : (exampleBoot exampleMemmaps).Ready :=
  exampleBoot_ready rfl (by decide +kernel) (by decide +kernel)

theorem exampleMemmaps_room :
    (exampleBoot exampleMemmaps).Room exampleKernelPagemap 0xffff800000000000 :=
  exampleBoot_room (by decide +kernel) (by decide +kernel)

/-- The range that covers the page `p` has a page of the database that is not mapped. -/
theorem not_allCovered {K : Type} {P : KernelPagemap K} {hhdm : ℕ} {s : Boot K} {base size p v : ℕ}
    (hadded : (base, size) ∈ s.added) (hp : base ≤ p * pageSize)
    (hp' : (p + 1) * pageSize ≤ base + size)
    (hv : alignDown ((s.pageFor hhdm (p * pageSize) + 0) % 2 ^ 64) pageSize = v)
    (hmapped : v ∉ s.mapped.map Prod.fst) : ¬ s.AllCovered P hhdm := by
  intro h
  obtain ⟨f, hf, -⟩ := h _ hadded p hp hp' 0 (by decide)
  exact hmapped (hv ▸ List.mem_map_of_mem hf)

/-- After `init`, the `struct page` of every page of every range given to `add_range` lies in pages that
`pfndb_add` has mapped. Without the page that is added to `max_length` this fails: a range can begin
with the last `struct page` of a page of the database. -/
theorem pfndb_covers :
    (∀ {K : Type} (P : KernelPagemap K) (hhdm fuel : ℕ) (s s' : Boot K), P.Keeps →
      0xFFFF800000000000 ≤ hhdm → pageSize ∣ hhdm → s.Ready → s.Room P hhdm →
      s.init P hhdm fuel pageSize = .ok s' → s'.AllCovered P hhdm) ∧
    ∃ (P : KernelPagemap (List (ℕ × ℕ))) (hhdm fuel : ℕ) (s s' : Boot (List (ℕ × ℕ))), P.Keeps ∧
      0xFFFF800000000000 ≤ hhdm ∧ pageSize ∣ hhdm ∧ s.Ready ∧ s.Room P hhdm ∧
      s.init P hhdm fuel 0 = .ok s' ∧ ¬ s'.AllCovered P hhdm := by
  refine ⟨fun P hhdm fuel s s' hP hhigh hpage hready hroom hrun =>
    init_covers hP hhigh hpage hready hroom hrun, ?_⟩
  have hrun : ((exampleBoot exampleMemmaps).init exampleKernelPagemap 0xffff800000000000 100 0).map
      (fun s => (s.added, s.pfndbBase, s.mapped.map Prod.fst)) =
        .ok ([(0x100000, 0xb000), (0x2ff000, 0x2000)], 0xffff800040000000,
          [0xffff800040001000, 0xffff800040004000, 0xffff800040002000]) := by decide +kernel
  obtain ⟨s', hs', heq⟩ := Except.map_eq_ok_iff.mp hrun
  obtain ⟨hadded, hrest⟩ := Prod.mk.inj heq
  obtain ⟨hbase, hmapped⟩ := Prod.mk.inj hrest
  refine ⟨exampleKernelPagemap, 0xffff800000000000, 100, exampleBoot exampleMemmaps, s',
    exampleKernelPagemap_keeps, by decide, by decide, exampleMemmaps_ready, exampleMemmaps_room, hs', ?_⟩
  refine not_allCovered (v := 0xffff800040003000) (p := 0x300)
    (hadded ▸ List.mem_cons_of_mem _ List.mem_cons_self) (by decide) (by decide) ?_ ?_
  · rw [pageFor, hbase]
    decide +kernel
  · rw [hmapped]
    decide

theorem pfndb_covers_example :
    ∃ s', (exampleBoot exampleMemmaps).init exampleKernelPagemap 0xffff800000000000 100 pageSize =
      .ok s' ∧ s'.added = [(0x100000, 0x9000), (0x2ff000, 0x2000)] ∧
      s'.AllCovered exampleKernelPagemap 0xffff800000000000 := by
  have hrun : ((exampleBoot exampleMemmaps).init exampleKernelPagemap 0xffff800000000000 100
      pageSize).map (fun s => s.added) = .ok [(0x100000, 0x9000), (0x2ff000, 0x2000)] := by
    decide +kernel
  obtain ⟨s', hs', hadded⟩ := Except.map_eq_ok_iff.mp hrun
  exact ⟨s', hs', hadded, pfndb_covers.1 exampleKernelPagemap 0xffff800000000000 100
    (exampleBoot exampleMemmaps) s' exampleKernelPagemap_keeps (by decide) (by decide)
    exampleMemmaps_ready exampleMemmaps_room hs'⟩

/-- A memory map that ends so high that the database goes past the end of the address space. -/
def exampleHighMemmaps : List Memmap :=
  [⟨0x100000, 0x10000, .usable⟩, ⟨0x3fffffe000, 0x4000, .usable⟩, ⟨0x7fff80000000, 0x40000000, .other⟩]

theorem not_pfndb_covers :
    ¬ ∀ {K : Type} (P : KernelPagemap K) (hhdm fuel : ℕ) (s s' : Boot K), P.Keeps →
      0xFFFF800000000000 ≤ hhdm → pageSize ∣ hhdm → s.Ready →
      s.init P hhdm fuel pageSize = .ok s' → s'.AllCovered P hhdm := by
  intro h
  have hrun : ((exampleBoot exampleHighMemmaps).init exampleKernelPagemap 0xffff800000000000 100
      pageSize).map (fun s => (s.added, s.pfndbBase, s.mapped.map Prod.fst)) =
        .ok ([(0x100000, 0x10000), (0x3fffffe000, 0x4000)], 0xffffffffc0000000,
          [0xffffffffc0002000, 0xffffffffc0001000]) := by decide +kernel
  obtain ⟨s', hs', heq⟩ := Except.map_eq_ok_iff.mp hrun
  obtain ⟨hadded, hrest⟩ := Prod.mk.inj heq
  obtain ⟨hbase, hmapped⟩ := Prod.mk.inj hrest
  refine not_allCovered (v := 0xfffffffffffff000) (p := 0x3ffffff)
    (hadded ▸ List.mem_cons_of_mem _ List.mem_cons_self) (by decide) (by decide) ?_ ?_
    (h exampleKernelPagemap 0xffff800000000000 100 (exampleBoot exampleHighMemmaps) s'
      exampleKernelPagemap_keeps (by decide) (by decide)
      (exampleBoot_ready rfl (by decide +kernel) (by decide +kernel)) hs')
  · rw [pageFor, hbase]
    decide +kernel
  · rw [hmapped]
    decide

end Boot

end Ilobilix.Pmm
