import Ilobilix.Memory.Vmm.Syscalls

/-!
# Page faults and the lock of the tree

`Space.handlePfault` says what a page fault does to an address space. Here the lock of the tree and the
references to its elements are explicit: the handler takes the write lock, keeps a reference to the entry
it found, and its copy-on-write branch calls `vmspace::map`, which asks for the write lock on its own and
erases the entry. `writeLock` on a lock that the thread holds and `read` of an element that is no longer
in the tree end the run.

The count of an object is the number of mappings with it and of the references held elsewhere. It is the
only thing that decides about the branch: `pfault_completes_iff`.
-/

namespace Ilobilix.Vmm

open Lib Intervals

/-! ## The model -/

/-- Why a handler did not return. -/
inductive Halt
  | stop (why : Stop)
  /-- the lock of the tree is asked for by the thread that holds it -/
  | selfLock
  /-- an element is read after it was erased from the tree -/
  | dangling
deriving DecidableEq, Repr

/-- An address space with a thread in `handle_pfault`. -/
structure Faulting where
  space : Space
  /-- the thread holds the write lock of the tree -/
  held : Bool
  /-- the elements erased from the tree since the handler started -/
  erased : List Mapping

namespace Faulting

/-- `tree.write_lock()`. Another holder lets go of the lock in the end, the thread itself does not. -/
def writeLock (f : Faulting) : Except Halt Faulting :=
  if f.held then .error .selfLock else .ok { f with held := true }

def writeUnlock (f : Faulting) : Faulting := { f with held := false }

/-- A read through a reference to an element of the tree. -/
def read (entry : Mapping) (f : Faulting) : Except Halt Mapping :=
  if entry ∈ f.erased then .error .dangling else .ok entry

/-- `vmspace::map`, with the elements that it erases. `erase` takes every element with a key. -/
def map (pm : Pagemap) (fuel address length : ℕ) (prot flags : BitVec 8) (obj offset : ℕ)
    (f : Faulting) : Except Halt (Faulting × Except Error Unit) :=
  if address % psize ≠ 0 then .ok (f, .error .addrNotAligned)
  else if offset % psize ≠ 0 then .ok (f, .error .addrNotAligned)
  else
    f.writeLock >>= fun f =>
      let overlapping := f.space.tree.filter
        (overlaps (startPage address) (endPage address length))
      let taken := overlapping.takeWhile fun entry => !entry.untouchable
      let gone := f.space.tree.filter fun m => taken.any fun entry => entry.startp == m.startp
      match f.space.map pm fuel address length prot flags obj offset with
      | .error stop => .error (.stop stop)
      | .ok (s, r) =>
          .ok (writeUnlock { f with space := s, erased := gone ++ f.erased }, r)

end Faulting

/-- `object::copy_to` of whole pages from the index `idx` on, with the number of pages left; `requests`
is what `request_page` returns for each object and index. It ends at a page that cannot be had. -/
def Space.copyTo (obj other : ℕ) (requests : ℕ → ℕ → ℕ) : (left idx : ℕ) → Space → Space
  | 0, _, s => s
  | left + 1, idx, s =>
      match s.getPage obj idx (requests obj idx) with
      | (s, 0) => s
      | (s, _ + 1) =>
          match s.getPage other idx (requests other idx) with
          | (s, 0) => s
          | (s, _ + 1) => s.copyTo obj other requests left ((idx + 1) % 2 ^ 52)

/-- `obj.use_count()`: the mappings with the object and the references elsewhere. -/
def Space.useCount (external : ℕ → ℕ) (obj : ℕ) (s : Space) : ℕ :=
  (s.tree.filter fun entry => entry.obj == obj).length + external obj

/-- The entry that `handle_pfault` looks for. -/
def Space.entryAt (addr : ℕ) (s : Space) : Option Mapping :=
  s.tree.find? fun entry => entry.startp ≤ addr / psize && addr / psize < entry.endp

namespace Faulting

/-- The end of `handle_pfault`, with the object and the fields of the entry at hand. -/
def mapIn (pm : Pagemap) (fuel page obj pidx requested : ℕ) (prot : BitVec 8) (f : Faulting) :
    Except Halt (Faulting × Bool) :=
  match f.space.getPage obj pidx requested with
  | (s, pg) =>
      let f := { f with space := s }
      if pg = 0 then .ok (f.writeUnlock, false)
      else
        match pm.translate (page * psize % 2 ^ 64) .small s.pmap with
        | .error stop => .error (.stop stop)
        | .ok (pmap, ret) =>
            let s := { s with pmap := pmap }
            if ret = .ok pg then .ok (writeUnlock { f with space := s }, false)
            else
              match pm.map fuel (page * psize % 2 ^ 64) pg psize (pflagsOf prot) .small .normal
                  s.pmap with
              | .error stop => .error (.stop stop)
              | .ok (pmap, ret) =>
                  .ok (writeUnlock { f with space := { s with pmap := pmap } }, ret.isOk)

/-- The object for the page: that of the entry, or a copy of it that `map` puts in its place. -/
def objectFor (pm : Pagemap) (fuel : ℕ) (onWrite : Bool) (external : ℕ → ℕ) (memobject : ℕ)
    (requests : ℕ → ℕ → ℕ) (entry : Mapping) (f : Faulting) : Except Halt (Faulting × ℕ) :=
  if onWrite && entry.flags.getLsbD 1 && 1 < f.space.useCount external entry.obj then
    let pages := wsub entry.endp entry.startp % 2 ^ 52
    let s := f.space.copyTo entry.obj memobject requests pages
      ((entry.startp + entry.offsetp) % 2 ^ 52)
    Faulting.map pm fuel (entry.startp * psize % 2 ^ 64)
      (wsub entry.endp entry.startp * psize % 2 ^ 64) entry.prot entry.flags memobject
      (entry.offsetp * psize % 2 ^ 64) { f with space := s } >>= fun r =>
        match r with
        | (_, .error _) => .error (.stop .panic)
        | (f, .ok ()) => .ok (f, memobject)
  else .ok (f, entry.obj)

def handlePfault (pm : Pagemap) (fuel addr : ℕ) (onWrite : Bool) (external : ℕ → ℕ)
    (memobject : ℕ) (requests : ℕ → ℕ → ℕ) (f : Faulting) : Except Halt (Faulting × Bool) :=
  f.writeLock >>= fun f =>
    match f.space.entryAt addr with
    | none => .ok (f.writeUnlock, false)
    | some entry =>
        f.objectFor pm fuel onWrite external memobject requests entry >>= fun (f, obj) =>
          f.read entry >>= fun entry =>
            let pidx := ((addr / psize - entry.startp) + entry.offsetp) % 2 ^ 64
            f.mapIn pm fuel (addr / psize) obj pidx (requests obj pidx) entry.prot

end Faulting

/-! ## The page map returns

For one page the loop of `map` has one turn. Only the allocator of the tables can stop it. -/

section Total

variable {pm : Pagemap} {st : Tables}

theorem Pagemap.getlvl_total (pm : Pagemap) (t j : ℕ) (allocate : Bool) (st : Tables) :
    (∃ r, pm.getlvl t j allocate st = .ok r) ∨
      (allocate = true ∧ pm.getlvl t j allocate st = .error .panic ∧ ∃ k, pm.newTable k = none) := by
  unfold Pagemap.getlvl
  dsimp only
  split
  · exact Or.inl ⟨_, rfl⟩
  · split
    · exact Or.inl ⟨_, rfl⟩
    · rename_i halloc
      split
      · rename_i hnone
        exact Or.inr ⟨Bool.eq_true_of_not_eq_false halloc, rfl, _, hnone⟩
      · exact Or.inl ⟨_, rfl⟩

theorem Pagemap.getpteFrom_total (pm : Pagemap) (vaddr retidx : ℕ) (allocate : Bool)
    (left pml i shift : ℕ) (st : Tables) :
    (∃ r, pm.getpteFrom vaddr retidx allocate left pml i shift st = .ok r) ∨
      (allocate = true ∧ pm.getpteFrom vaddr retidx allocate left pml i shift st = .error .panic ∧
        ∃ k, pm.newTable k = none) := by
  induction left generalizing pml i shift st with
  | zero => exact Or.inl ⟨_, rfl⟩
  | succ left ih =>
      rw [Pagemap.getpteFrom]
      split
      · exact Or.inl ⟨_, rfl⟩
      · rcases pm.getlvl_total pml ((vaddr >>> shift) &&& 0b111111111) allocate st with
          ⟨⟨st', next⟩, hlvl⟩ | ⟨halloc, hlvl, hnone⟩
        · rw [hlvl]
          cases next with
          | none => exact Or.inl ⟨_, rfl⟩
          | some pml => exact ih pml (i + 1) (shift - 9) st'
        · rw [hlvl]
          exact Or.inr ⟨halloc, rfl, hnone⟩

theorem Pagemap.translate_total (pm : Pagemap) (vaddr : ℕ) (size : PageSize) (st : Tables) :
    ∃ r, pm.translate vaddr size st = .ok r := by
  unfold Pagemap.translate
  dsimp only
  split
  · exact ⟨_, rfl⟩
  · rw [Pagemap.getpte]
    obtain ⟨⟨st', r⟩, hpte⟩ | ⟨hfalse, -⟩ := pm.getpteFrom_total vaddr
      (levels - (pm.fixpsize size).toNat - 1) false levels pm.table 0 (12 + (levels - 1) * 9) st
    · rw [hpte]
      cases r with
      | error err => exact ⟨_, rfl⟩
      | ok tj =>
          dsimp only
          split
          · exact ⟨_, rfl⟩
          · exact ⟨_, rfl⟩
    · cases hfalse

/-- `map` of one page returns, or the allocator has no page for a table. -/
theorem Pagemap.map_total (pm : Pagemap) (vaddr paddr : ℕ) (flags : Pflag) (cache : Caching)
    (st : Tables) :
    (∃ r, Returns (fun fuel => pm.map fuel vaddr paddr psize flags .small cache st) r) ∨
      (Stops (fun fuel => pm.map fuel vaddr paddr psize flags .small cache st) .panic ∧
        ∃ k, pm.newTable k = none) := by
  have hpsize : fromPageSize .small = psize := rfl
  simp only [Pagemap.map, fixpsize_small, hpsize]
  by_cases hal : vaddr % psize ≠ 0
  · simp only [if_pos hal]
    exact Or.inl ⟨_, Returns.of_eq fun _ => rfl⟩
  · simp only [if_neg hal]
    have hone : (0 + psize) % 2 ^ 64 = psize := by decide
    rcases pm.getpteFrom_total ((vaddr + 0) % 2 ^ 64) (levels - PageSize.small.toNat - 1) true levels
      pm.table 0 (12 + (levels - 1) * 9) st with ⟨⟨st', r⟩, hpte⟩ | ⟨-, hpte, hnone⟩
    · left
      cases r with
      | error err =>
          -- the pages to take back are none
          refine ⟨(st', .error err), 1, fun fuel hfuel => ?_⟩
          obtain ⟨n, rfl⟩ := Nat.exists_eq_add_of_le' hfuel
          simp only [forPages, Pagemap.mapPage, Pagemap.getpte, Pagemap.rollback, hpte]
          rfl
      | ok tj =>
          refine ⟨(st'.write tj.1 tj.2 (setflags (setaddr 0#64 ((paddr + 0) % 2 ^ 64))
            (toArch flags cache .small)), .ok ()), 2, fun fuel hfuel => ?_⟩
          obtain ⟨n, rfl⟩ := Nat.exists_eq_add_of_le' hfuel
          simp only [forPages, Pagemap.mapPage, Pagemap.getpte, hpte, hone, lt_irrefl, if_false]
          rfl
    · right
      refine ⟨⟨1, fun fuel hfuel => ?_⟩, hnone⟩
      obtain ⟨n, rfl⟩ := Nat.exists_eq_add_of_le' hfuel
      simp only [forPages, Pagemap.mapPage, Pagemap.getpte, hpte]
      rfl

end Total

/-! ## When a fault completes -/

/-- The fault takes the copy-on-write branch. -/
def Space.CopiesOnWrite (external : ℕ → ℕ) (addr : ℕ) (onWrite : Bool) (s : Space) : Prop :=
  onWrite = true ∧ ∃ entry, s.entryAt addr = some entry ∧ entry.flags.getLsbD 1 = true ∧
    1 < s.useCount external entry.obj

/-- The handler returns and has let go of the lock, or the allocator has no page for a table. -/
def FaultCompletes (pm : Pagemap) (addr : ℕ) (onWrite : Bool) (external : ℕ → ℕ) (memobject : ℕ)
    (requests : ℕ → ℕ → ℕ) (s : Space) : Prop :=
  (∃ s' r, Returns (fun fuel => Faulting.handlePfault pm fuel addr onWrite external memobject requests
    ⟨s, false, []⟩) (⟨s', false, []⟩, r)) ∨
  (Stops (fun fuel => Faulting.handlePfault pm fuel addr onWrite external memobject requests
    ⟨s, false, []⟩) (.stop .panic) ∧ ∃ k, pm.newTable k = none)

namespace Faulting

variable {pm : Pagemap} {fuel addr memobject : ℕ} {onWrite : Bool} {external : ℕ → ℕ}
  {requests : ℕ → ℕ → ℕ} {s : Space}

/-- `map` on aligned arguments asks for the lock. -/
theorem map_of_held {address length obj offset : ℕ} {prot flags : BitVec 8} {f : Faulting}
    (haddress : address % psize = 0) (hoffset : offset % psize = 0) (hheld : f.held = true) :
    f.map pm fuel address length prot flags obj offset = .error .selfLock := by
  rw [Faulting.map, if_neg (not_not.mpr haddress), if_neg (not_not.mpr hoffset), writeLock,
    if_pos hheld]
  rfl

theorem mul_psize_mod (n : ℕ) : n * psize % 2 ^ 64 % psize = 0 := by
  rw [psize]
  omega

/-- Copy on write asks for the lock that the handler holds. -/
theorem handlePfault_of_copies (h : s.CopiesOnWrite external addr onWrite) :
    handlePfault pm fuel addr onWrite external memobject requests ⟨s, false, []⟩ =
      .error .selfLock := by
  obtain ⟨rfl, entry, hentry, hprivate, hcount⟩ := h
  have hobject : objectFor pm fuel true external memobject requests entry ⟨s, true, []⟩ =
      .error .selfLock := by
    rw [objectFor, if_pos (by simp [hprivate, hcount])]
    dsimp only
    rw [map_of_held (mul_psize_mod _) (mul_psize_mod _) rfl]
    rfl
  simp only [handlePfault, writeLock, Bool.false_eq_true, if_false, bind, Except.bind]
  rw [hentry]
  simp only [hobject]

theorem not_branch (h : ¬ s.CopiesOnWrite external addr onWrite) {entry : Mapping}
    (hentry : s.entryAt addr = some entry) :
    ¬ (onWrite && entry.flags.getLsbD 1 && 1 < s.useCount external entry.obj) = true := by
  intro hall
  simp only [Bool.and_eq_true, decide_eq_true_eq] at hall
  exact h ⟨hall.1.1, entry, hentry, hall.1.2, hall.2⟩

/-- Without a copy the handler asks the object of the entry. -/
theorem handlePfault_of_not_copies (h : ¬ s.CopiesOnWrite external addr onWrite) {entry : Mapping}
    (hentry : s.entryAt addr = some entry) :
    handlePfault pm fuel addr onWrite external memobject requests ⟨s, false, []⟩ =
      mapIn pm fuel (addr / psize) entry.obj
        (((addr / psize - entry.startp) + entry.offsetp) % 2 ^ 64)
        (requests entry.obj (((addr / psize - entry.startp) + entry.offsetp) % 2 ^ 64)) entry.prot
        ⟨s, true, []⟩ := by
  have hnot := not_branch h hentry
  have hobject : objectFor pm fuel onWrite external memobject requests entry ⟨s, true, []⟩ =
      .ok (⟨s, true, []⟩, entry.obj) := if_neg hnot
  simp only [handlePfault, writeLock, Bool.false_eq_true, if_false, bind, Except.bind]
  rw [hentry]
  simp only [hobject, read, List.not_mem_nil, if_false]

theorem mapIn_completes (page obj pidx requested : ℕ) (prot : BitVec 8) :
    (∃ s' r, Returns (fun fuel => mapIn pm fuel page obj pidx requested prot ⟨s, true, []⟩)
      (⟨s', false, []⟩, r)) ∨
    (Stops (fun fuel => mapIn pm fuel page obj pidx requested prot ⟨s, true, []⟩) (.stop .panic) ∧
      ∃ k, pm.newTable k = none) := by
  rcases hget : s.getPage obj pidx requested with ⟨s₁, pg⟩
  by_cases hpg : pg = 0
  · refine Or.inl ⟨s₁, false, Returns.of_eq fun fuel => ?_⟩
    simp only [mapIn, hget, if_pos hpg]
    rfl
  · obtain ⟨⟨pmap, tr⟩, htr⟩ := pm.translate_total (page * psize % 2 ^ 64) .small s₁.pmap
    by_cases heq : tr = .ok pg
    · refine Or.inl ⟨{ s₁ with pmap := pmap }, false, Returns.of_eq fun fuel => ?_⟩
      simp only [mapIn, hget, if_neg hpg, htr, if_pos heq]
      rfl
    · rcases pm.map_total (page * psize % 2 ^ 64) pg (pflagsOf prot) .normal pmap with
        ⟨⟨pmap', res⟩, N, hN⟩ | ⟨⟨N, hN⟩, hnone⟩
      · refine Or.inl ⟨{ s₁ with pmap := pmap' }, res.isOk, N, fun fuel hfuel => ?_⟩
        have hmap := hN fuel hfuel
        dsimp only at hmap
        simp only [mapIn, hget, if_neg hpg, htr, if_neg heq, hmap]
        rfl
      · refine Or.inr ⟨⟨N, fun fuel hfuel => ?_⟩, hnone⟩
        have hmap := hN fuel hfuel
        dsimp only at hmap
        simp only [mapIn, hget, if_neg hpg, htr, if_neg heq, hmap]

/-- The model without the lock does the same as long as no copy is made. -/
theorem handlePfault_eq (h : ¬ s.CopiesOnWrite external addr onWrite) :
    handlePfault pm fuel addr onWrite external memobject requests ⟨s, false, []⟩ =
      match s.entryAt addr with
      | none => .ok (⟨s, false, []⟩, false)
      | some entry =>
          match s.handlePfault pm fuel addr onWrite (s.useCount external entry.obj)
            (requests entry.obj (((addr / psize - entry.startp) + entry.offsetp) % 2 ^ 64)) with
          | .error stop => .error (.stop stop)
          | .ok (s', r) => .ok (⟨s', false, []⟩, r) := by
  cases hentry : s.entryAt addr with
  | none =>
      simp only [handlePfault, writeLock, Bool.false_eq_true, if_false, bind, Except.bind]
      rw [hentry]
      rfl
  | some entry =>
      rw [handlePfault_of_not_copies h hentry, mapIn]
      dsimp only
      rw [Space.handlePfault]
      dsimp only
      rw [show s.tree.find? (fun entry => entry.startp ≤ addr / psize && addr / psize < entry.endp) =
        some entry from hentry]
      dsimp only
      rw [if_neg (not_branch h hentry)]
      rcases s.getPage entry.obj (((addr / psize - entry.startp) + entry.offsetp) % 2 ^ 64) _ with
        ⟨s₁, pg⟩
      dsimp only
      split
      · rfl
      · rcases pm.translate (addr / psize * psize % 2 ^ 64) .small s₁.pmap with stop | ⟨pmap, tr⟩
        · rfl
        · dsimp only
          split
          · rfl
          · rcases pm.map fuel (addr / psize * psize % 2 ^ 64) pg psize (pflagsOf entry.prot) .small
              .normal pmap with stop | ⟨pmap', err | u⟩
            · rfl
            · rfl
            · rfl

end Faulting

theorem not_completes_of_copies {pm : Pagemap} {s : Space} {external : ℕ → ℕ} {addr : ℕ}
    {onWrite : Bool} {memobject : ℕ} {requests : ℕ → ℕ → ℕ}
    (hcopies : s.CopiesOnWrite external addr onWrite) :
    ¬ FaultCompletes pm addr onWrite external memobject requests s := by
  rintro (⟨s', r, N, hN⟩ | ⟨⟨N, hN⟩, -⟩)
  all_goals
    have hend := hN N le_rfl
    dsimp only at hend
    rw [Faulting.handlePfault_of_copies hcopies] at hend
    cases hend

/-- A page fault completes if and only if it makes no copy on write. -/
theorem pfault_completes_iff (pm : Pagemap) (s : Space) (external : ℕ → ℕ) (addr : UInt64)
    (onWrite : Bool) (memobject : ℕ) (requests : ℕ → ℕ → ℕ) :
    FaultCompletes pm addr.toNat onWrite external memobject requests s ↔
      ¬ s.CopiesOnWrite external addr.toNat onWrite := by
  constructor
  · intro hcompletes hcopies
    exact not_completes_of_copies hcopies hcompletes
  · intro hcopies
    cases hentry : s.entryAt addr.toNat with
    | none =>
        refine Or.inl ⟨s, false, Returns.of_eq fun fuel => ?_⟩
        rw [Faulting.handlePfault_eq hcopies, hentry]
    | some entry =>
        have heq : ∀ fuel, Faulting.handlePfault pm fuel addr.toNat onWrite external memobject requests
            ⟨s, false, []⟩ = _ := fun fuel => Faulting.handlePfault_of_not_copies hcopies hentry
        rw [FaultCompletes]
        simp only [heq]
        exact Faulting.mapIn_completes _ _ _ _ _

/-- Three pages are mapped and the one in the middle is unmapped, so two mappings share the object. A
write to the first page then never gets the lock. -/
theorem pfault_blocks : ∃ s₁ s₂ : Space,
    Returns (fun fuel => Space.empty.runUser exampleMachine fuel
      (.mmap 0x10000 0x3000 3 0x32 (-1) 0 none 1)) (s₁, .ok 0x10000) ∧
    Returns (fun fuel => s₁.runUser exampleMachine fuel (.munmap 0x11000 0x1000)) (s₂, .ok 0) ∧
    Stops (fun fuel => Faulting.handlePfault exampleMachine fuel 0x10000 true (fun _ => 0) 2
      (fun _ _ => 0x5000) ⟨s₂, false, []⟩) .selfLock ∧
    ¬ FaultCompletes exampleMachine 0x10000 true (fun _ => 0) 2 (fun _ _ => 0x5000) s₂ := by
  obtain ⟨s₁, hcall₁, hwf₁, htree₁⟩ := Space.exists_call (.map 0x10000 0x3000 3 0x32 1 0) (.ok ())
    [⟨0x10, 0x13, 1, 0, 3, 0x32⟩] rfl Space.empty_smallWf (fun _ => rfl) (by decide +kernel) rfl
    (by decide +kernel)
  obtain ⟨s₂, hcall₂, -, htree₂⟩ := Space.exists_call (.unmap 0x11000 0x1000) (.ok ())
    [⟨0x10, 0x11, 1, 0, 3, 0x32⟩, ⟨0x12, 0x13, 1, 2, 3, 0x32⟩] htree₁ hwf₁ (fun _ => rfl)
    (by decide +kernel) rfl (by decide +kernel)
  have hcopies : s₂.CopiesOnWrite (fun _ => 0) 0x10000 true := by
    refine ⟨rfl, ⟨0x10, 0x11, 1, 0, 3, 0x32⟩, ?_, rfl, ?_⟩
    · rw [Space.entryAt, htree₂]
      decide +kernel
    · rw [Space.useCount, htree₂]
      decide
  have hlock : Stops (fun fuel => Faulting.handlePfault exampleMachine fuel 0x10000 true (fun _ => 0) 2
      (fun _ _ => 0x5000) ⟨s₂, false, []⟩) .selfLock :=
    ⟨0, fun _ _ => Faulting.handlePfault_of_copies hcopies⟩
  refine ⟨s₁, s₂, mmap_of_call (by decide) (by decide) (by decide) (by decide) (by decide) ?_ hcall₁,
    munmap_of_call hcall₂, hlock, ?_⟩
  · decide +kernel
  · exact not_completes_of_copies hcopies

end Ilobilix.Vmm
