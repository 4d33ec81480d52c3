import Ilobilix.Memory.Vmm.Tree

/-!
# The memory system calls: `system/syscall/memory.cpp`

`mmap`, `munmap` and `mprotect` check their arguments and call the address space of the process. User
stacks are mapped by `thread::create` with the flag `untouchable`; the calls above skip such mappings
or fail. They stay in the tree as long as `erase` removes the entry it is given, which is what the
invariant of the tree says: `untouchable_survives`. Without it, an empty mapping with the key of a
stack takes the stack along when it is erased: `stack_lost`.
-/

namespace Ilobilix.Vmm

open Lib Intervals

inductive Errno
  | einval
  | ebadf
  | enomem
  | enodev
deriving DecidableEq

/-- The end of `mmap`, with the address chosen. `file` is what `fdt.get(fd)` and `file->map(priv)`
return, and `memobject` the identity of a new object. -/
def Space.mmapAt (pm : Pagemap) (fuel address length : ℕ) (prot flags fd : BitVec 32) (offset : ℕ)
    (file : Option (Option ℕ)) (memobject : ℕ) (s : Space) :
    Except Stop (Space × Except Errno ℕ) :=
  let anon := flags.getLsbD 5
  if (address + length) % 2 ^ 64 < address then .ok (s, .error .einval)
  else
    let obj : Except Errno ℕ :=
      if !anon && 0 ≤ fd.toInt then
        match file with
        | none => .error .ebadf
        | some none => .error .enodev
        | some (some obj) => .ok obj
      else if offset ≠ 0 then .error .einval
      else .ok memobject
    match obj with
    | .error errno => .ok (s, .error errno)
    | .ok obj =>
        match s.map pm fuel address length (prot.setWidth 8) (flags.setWidth 8) obj offset with
        | .error stop => .error stop
        | .ok (s, .error _) => .ok (s, .error .enomem)
        | .ok (s, .ok ()) => .ok (s, .ok address)

def Space.mmap (pm : Pagemap) (fuel addr length : ℕ) (prot flags fd : BitVec 32) (offset : ℕ)
    (file : Option (Option ℕ)) (memobject : ℕ) (s : Space) :
    Except Stop (Space × Except Errno ℕ) :=
  let priv := flags.getLsbD 1
  let shared := flags.getLsbD 0
  let fixed := flags.getLsbD 4
  let anon := flags.getLsbD 5
  if (priv && shared) || (!priv && !shared) || (0 ≤ fd.toInt && anon) || length = 0 then
    .ok (s, .error .einval)
  else if length % psize ≠ 0 ∨ offset % psize ≠ 0 then .ok (s, .error .einval)
  else if anon && fd.toInt ≠ -1 then .ok (s, .error .einval)
  else if !anon && fd.toInt < 0 then .ok (s, .error .ebadf)
  else if fixed then
    if addr = 0 ∨ addr % psize ≠ 0 then .ok (s, .error .einval)
    else if s.isMapped addr length then
      match s.unmap pm fuel addr length with
      | .error stop => .error stop
      | .ok (s, .error _) => .ok (s, .error .einval)
      | .ok (s, .ok ()) => s.mmapAt pm fuel addr length prot flags fd offset file memobject
    else s.mmapAt pm fuel addr length prot flags fd offset file memobject
  else
    let address := s.findFreeRegion length
    if address = 0 then .ok (s, .error .enomem)
    else s.mmapAt pm fuel address length prot flags fd offset file memobject

def Space.munmap (pm : Pagemap) (fuel addr length : ℕ) (s : Space) :
    Except Stop (Space × Except Errno ℕ) :=
  match s.unmap pm fuel addr length with
  | .error stop => .error stop
  | .ok (s, .error _) => .ok (s, .error .einval)
  | .ok (s, .ok ()) => .ok (s, .ok 0)

def Space.mprotect (pm : Pagemap) (fuel addr len : ℕ) (prot : BitVec 32) (s : Space) :
    Except Stop (Space × Except Errno ℕ) :=
  match s.protect pm fuel addr len (prot.setWidth 8) with
  | .error stop => .error stop
  | .ok (s, .error _) => .ok (s, .error .enomem)
  | .ok (s, .ok ()) => .ok (s, .ok 0)

/-! ## The system -/

/-- `boot::ustack_size`. -/
def ustackSize : UInt64 := 0x200000

/-- The mapping of the user stack in `thread::create`, below `next_stack_top`. -/
def createStack (nextStackTop : UInt64) (obj : ℕ) : SpaceOp :=
  .map (nextStackTop - ustackSize) ustackSize 3 0x42 obj 0

/-- The calls of a user program. -/
inductive UserOp
  | mmap (addr length : UInt64) (prot flags fd : BitVec 32) (offset : UInt64)
      (file : Option (Option ℕ)) (memobject : ℕ)
  | munmap (addr length : UInt64)
  | mprotect (addr len : UInt64) (prot : BitVec 32)

def Space.runUser (pm : Pagemap) (fuel : ℕ) (s : Space) :
    UserOp → Except Stop (Space × Except Errno ℕ)
  | .mmap addr length prot flags fd offset file memobject =>
      s.mmap pm fuel addr.toNat length.toNat prot flags fd offset.toNat file memobject
  | .munmap addr length => s.munmap pm fuel addr.toNat length.toNat
  | .mprotect addr len prot => s.mprotect pm fuel addr.toNat len.toNat prot

/-- Everything that happens to the address space of a process. The kernel maps user stacks and
programs, unmaps objects and handles page faults. -/
inductive MemoryOp
  | kernel (op : SpaceOp)
  | user (op : UserOp)
  | fault (addr : UInt64) (onWrite : Bool) (useCount requested : ℕ)

def MemoryOp.isUser : MemoryOp → Bool
  | .user _ => true
  | _ => false

/-- The runs of an address space with its system calls. -/
def Space.memorySystem (pm : Pagemap) : TransitionSystem Space MemoryOp where
  init s := s.tree = []
  step s l s' :=
    match l with
    | .kernel op => ∃ r, s.Call pm op r s'
    | .user op => ∃ r, Returns (fun fuel => s.runUser pm fuel op) (s', r)
    | .fault addr onWrite useCount requested =>
        ∃ r, Returns (fun fuel => s.handlePfault pm fuel addr.toNat onWrite useCount requested) (s', r)

/-- The calls of a user program that keep the invariant of the tree. For `mmap` that concerns the
range of a fixed address: it is unmapped first if it is mapped. -/
def UserOp.KeepsTree (s : Space) : UserOp → Prop
  | .mmap addr length _ flags .. =>
      flags.getLsbD 4 = true →
        if s.isMapped addr.toNat length.toNat then SpaceOp.KeepsTree s.tree (.unmap addr length)
        else ∀ e ∈ s.tree, e.untouchable = false →
          ¬ e.EndsInside (startPage addr.toNat) (endPage addr.toNat length.toNat)
  | .munmap addr length => SpaceOp.KeepsTree s.tree (.unmap addr length)
  | .mprotect addr len prot => SpaceOp.KeepsTree s.tree (.protect addr len (prot.setWidth 8))

/-- The operations that keep the invariant of the tree. -/
def MemoryOp.KeepsTree (s : Space) : MemoryOp → Prop
  | .kernel op => op.KeepsTree s.tree
  | .user op => op.KeepsTree s
  | .fault .. => True

/-! ## What `find_free_region` finds -/

/-- The region found has no page in common with a mapping, and no free region starts before it. -/
theorem findFreeLoop_spec (pages : ℕ) {last : ℕ} {tree : List Mapping}
    (hsep : Separated Mapping.startp Mapping.endp tree) (hlast : ∀ e ∈ tree, last ≤ e.startp)
    (hbound : ∀ e ∈ tree, e.endp < 2 ^ 64) :
    ∃ r, findFreeLoop pages tree last = r * psize % 2 ^ 64 ∧ (r = last ∨ ∃ e ∈ tree, r = e.endp) ∧
      (∀ e ∈ tree, e.endp ≤ r ∨ r + pages ≤ e.startp) ∧
      ∀ p, last ≤ p → (∀ e ∈ tree, e.endp ≤ p ∨ p + pages ≤ e.startp) → r ≤ p := by
  induction tree generalizing last with
  | nil => exact ⟨last, rfl, Or.inl rfl, by simp, fun p hp _ => hp⟩
  | cons x tree ih =>
      have hx := List.pairwise_cons.mp hsep.sorted
      have hne := hsep.nonempty x List.mem_cons_self
      have hle := hlast x List.mem_cons_self
      have hlt := hbound x List.mem_cons_self
      rw [findFreeLoop, wsub_of_le hle (by omega)]
      split
      · rename_i hfits
        refine ⟨last, rfl, Or.inl rfl, fun e he => Or.inr ?_, fun p hp _ => hp⟩
        rcases List.mem_cons.mp he with rfl | he
        · omega
        · have := hx.1 e he
          omega
      · rename_i hfits
        obtain ⟨r, hr, hcases, hall, hfirst⟩ := ih hsep.of_cons (fun e he => hx.1 e he)
          fun e he => hbound e (List.mem_cons_of_mem x he)
        refine ⟨r, hr, ?_, fun e he => ?_, fun p hp hfree => ?_⟩
        · rcases hcases with rfl | ⟨e, he, rfl⟩
          · exact Or.inr ⟨x, List.mem_cons_self, rfl⟩
          · exact Or.inr ⟨e, List.mem_cons_of_mem x he, rfl⟩
        · rcases List.mem_cons.mp he with rfl | he
          · left
            rcases hcases with rfl | ⟨e', he', rfl⟩
            · exact le_rfl
            · exact le_trans (hx.1 e' he') (hsep.nonempty e' (List.mem_cons_of_mem _ he')).le
          · exact hall e he
        · -- a region in front of `x` would have fitted
          have hbehind := hfree x List.mem_cons_self
          exact hfirst p (by omega) fun e he => hfree e (List.mem_cons_of_mem x he)

/-- The region found begins at a page and is free. -/
theorem TreeWf.findFreeRegion {s : Space} (htree : TreeWf s.tree) (length : ℕ) :
    s.findFreeRegion length < 2 ^ 64 ∧ s.findFreeRegion length % psize = 0 ∧
      ∀ e ∈ s.tree, e.endp ≤ startPage (s.findFreeRegion length) ∨
        startPage (s.findFreeRegion length) + divRoundup length psize ≤ e.startp := by
  obtain ⟨r, hr, hcases, hall, -⟩ :=
    findFreeLoop_spec (divRoundup length psize) htree.separated (fun e _ => Nat.zero_le _)
      fun e he => lt_trans (htree.bounded e he).1 (by norm_num)
  have hlt : r < 2 ^ 52 := by
    rcases hcases with rfl | ⟨e, he, rfl⟩
    · exact Nat.two_pow_pos 52
    · exact (htree.bounded e he).1
  have heq : s.findFreeRegion length = r * psize := by
    rw [Space.findFreeRegion, hr, Nat.mod_eq_of_lt]
    rw [psize]
    omega
  rw [heq, startPage, Nat.mul_div_cancel r (by decide : 0 < psize)]
  refine ⟨?_, Nat.mul_mod_left r psize, hall⟩
  rw [psize]
  omega

/-! ## The checks of `mmap` -/

/-- The arguments pass the checks that `mmap` makes before it looks at the address space. -/
structure PassesChecks (addr length : ℕ) (flags fd : BitVec 32) (offset : ℕ) : Prop where
  sharing : flags.getLsbD 1 ≠ flags.getLsbD 0
  nonempty : length ≠ 0
  length_aligned : length % psize = 0
  offset_aligned : offset % psize = 0
  anonymous : flags.getLsbD 5 = true → fd.toInt = -1
  file : flags.getLsbD 5 = false → 0 ≤ fd.toInt
  fixed : flags.getLsbD 4 = true → addr ≠ 0 ∧ addr % psize = 0

section Checks

variable {pm : Pagemap} {fuel addr length offset : ℕ} {prot flags fd : BitVec 32}
  {file : Option (Option ℕ)} {memobject : ℕ} {s s' : Space}

theorem mmap_of_not_passes {r : Except Errno ℕ} (hpass : ¬ PassesChecks addr length flags fd offset)
    (h : s.mmap pm fuel addr length prot flags fd offset file memobject = .ok (s', r)) :
    s' = s ∧ ∃ errno, r = .error errno := by
  unfold Space.mmap at h
  dsimp only at h
  split at h
  · cases h
    exact ⟨rfl, _, rfl⟩
  · split at h
    · cases h
      exact ⟨rfl, _, rfl⟩
    · split at h
      · cases h
        exact ⟨rfl, _, rfl⟩
      · split at h
        · cases h
          exact ⟨rfl, _, rfl⟩
        · rename_i hargs halign hanon hfd
          split at h
          · split at h
            · cases h
              exact ⟨rfl, _, rfl⟩
            · rename_i hfixed haddr
              refine absurd ⟨?_, ?_, ?_, ?_, ?_, ?_, ?_⟩ hpass
              all_goals grind
          · rename_i hfixed
            refine absurd ⟨?_, ?_, ?_, ?_, ?_, ?_, ?_⟩ hpass
            all_goals grind

/-- After its checks `mmap` unmaps the range of a fixed address or looks for a free region. -/
theorem mmap_of_passes (h : PassesChecks addr length flags fd offset) :
    s.mmap pm fuel addr length prot flags fd offset file memobject =
      if flags.getLsbD 4 then
        if s.isMapped addr length then
          match s.unmap pm fuel addr length with
          | .error stop => .error stop
          | .ok (s, .error _) => .ok (s, .error .einval)
          | .ok (s, .ok ()) => s.mmapAt pm fuel addr length prot flags fd offset file memobject
        else s.mmapAt pm fuel addr length prot flags fd offset file memobject
      else if s.findFreeRegion length = 0 then .ok (s, .error .enomem)
      else s.mmapAt pm fuel (s.findFreeRegion length) length prot flags fd offset file memobject := by
  obtain ⟨hsharing, hpos, hlen, hoff, hanon, hfile, hfixed⟩ := h
  unfold Space.mmap
  dsimp only
  rw [if_neg (by grind), if_neg (by grind), if_neg (by grind), if_neg (by grind)]
  split
  · rw [if_neg (by grind)]
  · rfl

end Checks

/-! ## System calls are made of calls -/

/-- The calls that a system call makes. A `map` has the object of the file or the new one. -/
def UserOp.MayCall : UserOp → SpaceOp → Prop
  | .mmap _ _ _ _ _ _ file memobject, .map _ _ _ _ obj _ => obj = memobject ∨ file = some (some obj)
  | _, .map .. => False
  | _, _ => True

section Rule

variable {pm : Pagemap} {fuel : ℕ} {P : List Mapping → Prop} {s s' : Space}

theorem findFreeLoop_lt (pages : ℕ) (tree : List Mapping) (last : ℕ) :
    findFreeLoop pages tree last < 2 ^ 64 := by
  induction tree generalizing last with
  | nil => exact Nat.mod_lt _ (Nat.two_pow_pos 64)
  | cons e tree ih =>
      rw [findFreeLoop]
      split
      · exact Nat.mod_lt _ (Nat.two_pow_pos 64)
      · exact ih e.endp

private theorem mmapAt_rule {address length offset : UInt64} {prot flags fd : BitVec 32}
    {file : Option (Option ℕ)} {memobject : ℕ} {r : Except Errno ℕ}
    (hrun : ∀ address length prot flags obj offset (s : Space) s' r,
      (obj = memobject ∨ file = some (some obj)) → P s.tree →
      s.run pm fuel (.map address length prot flags obj offset) = .ok (s', r) → P s'.tree)
    (hs : P s.tree)
    (h : s.mmapAt pm fuel address.toNat length.toNat prot flags fd offset.toNat file memobject =
      .ok (s', r)) : P s'.tree := by
  unfold Space.mmapAt at h
  dsimp only at h
  split at h
  · cases h
    exact hs
  · split at h
    · cases h
      exact hs
    · rename_i obj hobj
      have hfrom : obj = memobject ∨ file = some (some obj) := by
        split at hobj
        · split at hobj
          · cases hobj
          · cases hobj
          · cases hobj
            exact Or.inr rfl
        · split at hobj
          · cases hobj
          · cases hobj
            exact Or.inl rfl
      have hmap := hrun address length (prot.setWidth 8) (flags.setWidth 8) obj offset s
      split at h
      · cases h
      · rename_i err hm
        cases h
        exact hmap s' (.error err) hfrom hs hm
      · rename_i hm
        cases h
        exact hmap s' (.ok ()) hfrom hs hm

/-- What every call keeps of the tree, every system call keeps. -/
theorem runUser_rule {op : UserOp} {r : Except Errno ℕ}
    (hrun : ∀ (s : Space) call s' r, op.MayCall call → P s.tree →
      s.run pm fuel call = .ok (s', r) → P s'.tree) (hs : P s.tree)
    (h : s.runUser pm fuel op = .ok (s', r)) : P s'.tree := by
  cases op with
  | mmap addr length prot flags fd offset file memobject =>
      have hmap := fun address length prot flags obj offset (s : Space) s' r hfrom =>
        hrun s (.map address length prot flags obj offset) s' r hfrom
      rw [Space.runUser] at h
      by_cases hpass : PassesChecks addr.toNat length.toNat flags fd offset.toNat
      · rw [mmap_of_passes hpass] at h
        split at h
        · split at h
          · split at h
            · cases h
            · rename_i s₁ err hunmap
              cases h
              exact hrun s (.unmap addr length) s' (.error err) trivial hs hunmap
            · rename_i s₁ hunmap
              exact mmapAt_rule hmap (hrun s (.unmap addr length) s₁ (.ok ()) trivial hs hunmap) h
          · exact mmapAt_rule hmap hs h
        · split at h
          · cases h
            exact hs
          · have haddress : s.findFreeRegion length.toNat =
                (UInt64.ofNat (s.findFreeRegion length.toNat)).toNat :=
              (UInt64.toNat_ofNat_of_lt' (findFreeLoop_lt _ _ _)).symm
            rw [haddress] at h
            exact mmapAt_rule hmap hs h
      · rwa [(mmap_of_not_passes hpass h).1]
  | munmap addr length =>
      rw [Space.runUser, Space.munmap] at h
      split at h
      · cases h
      · rename_i err hunmap
        cases h
        exact hrun s (.unmap addr length) s' (.error err) trivial hs hunmap
      · rename_i hunmap
        cases h
        exact hrun s (.unmap addr length) s' (.ok ()) trivial hs hunmap
  | mprotect addr len prot =>
      rw [Space.runUser, Space.mprotect] at h
      split at h
      · cases h
      · rename_i err hprotect
        cases h
        exact hrun s (.protect addr len (prot.setWidth 8)) s' (.error err) trivial hs hprotect
      · rename_i hprotect
        cases h
        exact hrun s (.protect addr len (prot.setWidth 8)) s' (.ok ()) trivial hs hprotect

/-- The rule for invariants of the tree over whole runs. -/
theorem tree_invariant (hnil : P []) (hrun : ∀ fuel (s : Space) op s' r, P s.tree →
      s.run pm fuel op = .ok (s', r) → P s'.tree)
    (h : (Space.memorySystem pm).Reachable s) : P s.tree := by
  refine h.invariant (I := fun s => P s.tree) (fun s hs => ?_) ?_
  · rwa [show s.tree = [] from hs]
  · intro s l s' _ hs hstep
    cases l with
    | kernel op =>
        obtain ⟨r, N, hN⟩ := hstep
        exact hrun N s op s' r hs (hN N le_rfl)
    | user op =>
        obtain ⟨r, N, hN⟩ := hstep
        exact runUser_rule (fun s call s' r _ => hrun N s call s' r) hs (hN N le_rfl)
    | fault addr onWrite useCount requested =>
        obtain ⟨r, N, hN⟩ := hstep
        rwa [Space.handlePfault_tree (hN N le_rfl)]

end Rule

/-! ## Calls keep untouchable mappings -/

/-- The tree stays well formed and keeps its untouchable mappings. -/
def KeepsUntouchable (s s' : Space) : Prop :=
  TreeWf s'.tree ∧ ∀ m ∈ s.tree, m.untouchable = true → m ∈ s'.tree

section Keeps

variable {pm : Pagemap} {fuel : ℕ} {s s' : Space}

theorem KeepsUntouchable.refl (htree : TreeWf s.tree) : KeepsUntouchable s s :=
  ⟨htree, fun _ hm _ => hm⟩

theorem KeepsUntouchable.trans {s₁ s₂ s₃ : Space} (h₁ : KeepsUntouchable s₁ s₂)
    (h₂ : KeepsUntouchable s₂ s₃) : KeepsUntouchable s₁ s₃ :=
  ⟨h₂.1, fun m hm hu => h₂.2 m (h₁.2 m hm hu) hu⟩

theorem KeepsUntouchable.of_run {op : SpaceOp} {r : Except Error Unit} (htree : TreeWf s.tree)
    (hkeep : op.KeepsTree s.tree) (h : s.run pm fuel op = .ok (s', r)) : KeepsUntouchable s s' :=
  ⟨Space.treeWf_of_run htree hkeep h, fun _ hm hu => Space.untouchable_of_run htree hkeep h hm hu⟩

/-- The range of `mmap` is not empty and does not wrap around. -/
theorem startPage_lt_endPage {address length : ℕ} (hal : address % psize = 0)
    (hlen : length % psize = 0) (hpos : length ≠ 0) (hsum : address + length < 2 ^ 64) :
    startPage address < endPage address length := by
  rw [startPage, endPage, divRoundup_psize]
  simp only [psize] at hal hlen ⊢
  omega

theorem mmapAt_keeps {address length offset : UInt64} {prot flags fd : BitVec 32}
    {file : Option (Option ℕ)} {memobject : ℕ} {r : Except Errno ℕ} (htree : TreeWf s.tree)
    (hal : address.toNat % psize = 0) (hlen : length.toNat % psize = 0) (hpos : length.toNat ≠ 0)
    (hends : address.toNat + length.toNat < 2 ^ 64 → ∀ e ∈ s.tree, e.untouchable = false →
      ¬ e.EndsInside (startPage address.toNat) (endPage address.toNat length.toNat))
    (h : s.mmapAt pm fuel address.toNat length.toNat prot flags fd offset.toNat file memobject =
      .ok (s', r)) : KeepsUntouchable s s' := by
  unfold Space.mmapAt at h
  dsimp only at h
  split at h
  · cases h
    exact KeepsUntouchable.refl htree
  · rename_i hwrap
    have haddr := address.toNat_lt
    have hlength := length.toNat_lt
    have hsum : address.toNat + length.toNat < 2 ^ 64 := by omega
    split at h
    · cases h
      exact KeepsUntouchable.refl htree
    · rename_i obj _
      have hkeep : SpaceOp.KeepsTree s.tree
          (.map address length (prot.setWidth 8) (flags.setWidth 8) obj offset) := fun _ =>
        ⟨Or.inl (startPage_lt_endPage hal hlen hpos hsum), hends hsum⟩
      split at h
      · cases h
      · rename_i err hmap
        cases h
        exact KeepsUntouchable.of_run htree hkeep hmap
      · rename_i hmap
        cases h
        exact KeepsUntouchable.of_run htree hkeep hmap

/-- After an `unmap` of the range no touchable mapping overlaps it. -/
theorem not_overlaps_after_unmap {address length : UInt64} {r : Except Error Unit}
    (htree : TreeWf s.tree) (hkeep : SpaceOp.KeepsTree s.tree (.unmap address length))
    (hal : address.toNat % psize = 0)
    (h : s.run pm fuel (.unmap address length) = .ok (s', r)) {e : Mapping} (he : e ∈ s'.tree)
    (hu : e.untouchable = false) :
    overlaps (startPage address.toNat) (endPage address.toNat length.toNat) e = false := by
  obtain ⟨-, -, htree'⟩ := Space.eq_of_run h
  have hal' : SpaceOp.aligned (.unmap address length) = true := decide_eq_true hal
  have hemplaced : ∀ tree, SpaceOp.emplaced (.unmap address length) r tree = tree := by
    intro tree
    cases r with
    | error => rfl
    | ok => rfl
  rw [htree', hemplaced] at he
  by_contra hover
  have hover := Bool.not_eq_false _ ▸ hover
  rcases ((hkeep.afterLoop htree).2 e).mp he with ⟨hmem, hnot⟩ | ⟨e', he', hx⟩
  · rw [SpaceOp.entries, if_pos hal'] at hnot
    refine hnot (List.mem_filter.mpr ⟨hmem, ?_⟩)
    rw [hu, Bool.not_false, Bool.and_true]
    exact hover
  · obtain ⟨hlo, hhi⟩ := overlaps_iff.mp hover
    have hend := SpaceOp.endp_lt (.unmap address length)
    rw [SpaceOp.pieces, unmapPieces_eq (lt_trans (SpaceOp.startp_lt _) (by norm_num))
      (lt_trans hend (by norm_num))] at hx
    obtain ⟨-, rfl⟩ | ⟨-, rfl⟩ := mem_outside.mp hx
    · exact lt_irrefl _ hlo
    · exact lt_irrefl _ hhi

theorem Mapping.EndsInside.overlaps {startp endp : ℕ} {e : Mapping} (h : e.EndsInside startp endp) :
    Vmm.overlaps startp endp e = true :=
  overlaps_iff.mpr ⟨h.2.1, lt_of_lt_of_le (lt_trans h.1 h.2.1) h.2.2⟩

theorem mmap_keeps {addr length offset : UInt64} {prot flags fd : BitVec 32}
    {file : Option (Option ℕ)} {memobject : ℕ} {r : Except Errno ℕ} (htree : TreeWf s.tree)
    (hkeep : UserOp.KeepsTree s (.mmap addr length prot flags fd offset file memobject))
    (h : s.mmap pm fuel addr.toNat length.toNat prot flags fd offset.toNat file memobject =
      .ok (s', r)) : KeepsUntouchable s s' := by
  by_cases hpass : PassesChecks addr.toNat length.toNat flags fd offset.toNat
  · rw [mmap_of_passes hpass] at h
    split at h
    · rename_i hfixed
      have hkeep := hkeep hfixed
      have hal := (hpass.fixed hfixed).2
      split at h
      · rename_i hmapped
        rw [if_pos hmapped] at hkeep
        split at h
        · cases h
        · rename_i hunmap
          cases h
          exact KeepsUntouchable.of_run htree hkeep hunmap
        · rename_i s₁ hunmap
          have hfirst := KeepsUntouchable.of_run htree hkeep hunmap
          refine hfirst.trans (mmapAt_keeps hfirst.1 hal hpass.length_aligned hpass.nonempty
            (fun _ e he hu hin => ?_) h)
          have hnot := not_overlaps_after_unmap htree hkeep hal hunmap he hu
          rw [hin.overlaps] at hnot
          cases hnot
      · rename_i hmapped
        rw [if_neg hmapped] at hkeep
        exact mmapAt_keeps htree hal hpass.length_aligned hpass.nonempty (fun _ => hkeep) h
    · split at h
      · cases h
        exact KeepsUntouchable.refl htree
      · obtain ⟨hlt, hal, hfree⟩ := htree.findFreeRegion length.toNat
        have haddress : s.findFreeRegion length.toNat =
            (UInt64.ofNat (s.findFreeRegion length.toNat)).toNat :=
          (UInt64.toNat_ofNat_of_lt' hlt).symm
        rw [haddress] at h hal hfree
        refine mmapAt_keeps htree hal hpass.length_aligned hpass.nonempty (fun _ e he _ hin => ?_) h
        obtain ⟨hbelow, hinside, -⟩ := hin
        have := hfree e he
        omega
  · rw [(mmap_of_not_passes hpass h).1]
    exact KeepsUntouchable.refl htree

theorem munmap_keeps {addr length : UInt64} {r : Except Errno ℕ} (htree : TreeWf s.tree)
    (hkeep : SpaceOp.KeepsTree s.tree (.unmap addr length))
    (h : s.munmap pm fuel addr.toNat length.toNat = .ok (s', r)) : KeepsUntouchable s s' := by
  rw [Space.munmap] at h
  split at h
  · cases h
  · rename_i hunmap
    cases h
    exact KeepsUntouchable.of_run htree hkeep hunmap
  · rename_i hunmap
    cases h
    exact KeepsUntouchable.of_run htree hkeep hunmap

theorem mprotect_keeps {addr len : UInt64} {prot : BitVec 32} {r : Except Errno ℕ}
    (htree : TreeWf s.tree)
    (hkeep : SpaceOp.KeepsTree s.tree (.protect addr len (prot.setWidth 8)))
    (h : s.mprotect pm fuel addr.toNat len.toNat prot = .ok (s', r)) : KeepsUntouchable s s' := by
  rw [Space.mprotect] at h
  split at h
  · cases h
  · rename_i hprotect
    cases h
    exact KeepsUntouchable.of_run htree hkeep hprotect
  · rename_i hprotect
    cases h
    exact KeepsUntouchable.of_run htree hkeep hprotect

/-- Every operation that meets the condition keeps the invariant of the tree, and none of them removes
an untouchable mapping. -/
theorem memorySystem_keeps {l : MemoryOp} (htree : TreeWf s.tree) (hkeep : l.KeepsTree s)
    (h : (Space.memorySystem pm).step s l s') : KeepsUntouchable s s' := by
  cases l with
  | kernel op =>
      obtain ⟨r, N, hN⟩ := h
      exact KeepsUntouchable.of_run htree hkeep (hN N le_rfl)
  | user op =>
      obtain ⟨r, N, hN⟩ := h
      cases op with
      | mmap => exact mmap_keeps htree hkeep (hN N le_rfl)
      | munmap => exact munmap_keeps htree hkeep (hN N le_rfl)
      | mprotect => exact mprotect_keeps htree hkeep (hN N le_rfl)
  | fault =>
      obtain ⟨r, N, hN⟩ := h
      have heq := Space.handlePfault_tree (hN N le_rfl)
      rw [KeepsUntouchable, heq]
      exact KeepsUntouchable.refl htree

end Keeps

/-- In a run that meets the condition the tree is well formed. -/
theorem treeWf_of_memorySystem {pm : Pagemap} {s : Space}
    (h : ((Space.memorySystem pm).restrict fun s l => l.KeepsTree s).Reachable s) : TreeWf s.tree := by
  refine h.invariant (I := fun s => TreeWf s.tree) (fun s hs => ?_) ?_
  · rw [show s.tree = [] from hs]
    exact ⟨Separated.nil, by simp⟩
  · rintro s l s' - htree ⟨hkeep, hstep⟩
    exact (memorySystem_keeps htree hkeep hstep).1

/-- From a state that a run reaches, take any sequence of `mmap`, `munmap` and `mprotect`. If all calls
meet the condition, every untouchable mapping that was in the tree before is still there. -/
theorem untouchable_survives (pm : Pagemap) {s₀ s : Space}
    (h₀ : ((Space.memorySystem pm).restrict fun s l => l.KeepsTree s).Reachable s₀)
    (h : (((Space.memorySystem pm).restrict fun s l => l.KeepsTree s ∧ l.isUser).startAt
      s₀).Reachable s) :
    ∀ m ∈ s₀.tree, m.untouchable = true → m ∈ s.tree := by
  have hkeeps : KeepsUntouchable s₀ s := by
    refine h.invariant (fun s hs => ?_) ?_
    · cases show s = s₀ from hs
      exact KeepsUntouchable.refl (treeWf_of_memorySystem h₀)
    · rintro s l s' - hs ⟨⟨hkeep, -⟩, hstep⟩
      exact hs.trans (memorySystem_keeps hs.1 hkeep hstep)
  exact hkeeps.2

section Examples

variable {pm : Pagemap} {s s' : Space}

/-- A `munmap` whose `unmap` succeeds. -/
theorem munmap_of_call {addr length : UInt64}
    (h : s.Call pm (.unmap addr length) (.ok ()) s') :
    Returns (fun fuel => s.runUser pm fuel (.munmap addr length)) (s', .ok 0) := by
  obtain ⟨N, hN⟩ := h
  refine ⟨N, fun fuel hfuel => ?_⟩
  have hunmap : s.unmap pm fuel addr.toNat length.toNat = .ok (s', .ok ()) := hN fuel hfuel
  simp only [Space.runUser, Space.munmap, hunmap]

/-- A `mmap` at a fixed address that is not mapped yet, whose `map` succeeds. -/
theorem mmap_of_call {addr length : UInt64} {memobject : ℕ} (haddr : addr.toNat ≠ 0)
    (hal : addr.toNat % psize = 0) (hpos : length.toNat ≠ 0) (hlen : length.toNat % psize = 0)
    (hsum : addr.toNat + length.toNat < 2 ^ 64)
    (hmapped : s.isMapped addr.toNat length.toNat = false)
    (h : s.Call pm (.map addr length 3 0x32 memobject 0) (.ok ()) s') :
    Returns (fun fuel => s.runUser pm fuel (.mmap addr length 3 0x32 (-1) 0 none memobject))
      (s', .ok addr.toNat) := by
  obtain ⟨N, hN⟩ := h
  refine ⟨N, fun fuel hfuel => ?_⟩
  have hmap : s.map pm fuel addr.toNat length.toNat 3 0x32 memobject 0 = .ok (s', .ok ()) :=
    hN fuel hfuel
  have hwrap : ¬ (addr.toNat + length.toNat) % 2 ^ 64 < addr.toNat := by
    rw [Nat.mod_eq_of_lt hsum]
    omega
  have hat : s.mmapAt pm fuel addr.toNat length.toNat 3 0x32 (-1) 0 none memobject =
      .ok (s', .ok addr.toNat) := by
    unfold Space.mmapAt
    dsimp only
    rw [if_neg hwrap, if_neg (by decide), if_neg (by decide)]
    dsimp only
    rw [show (3 : BitVec 32).setWidth 8 = 3 from rfl, show (0x32 : BitVec 32).setWidth 8 = 0x32 from rfl,
      hmap]
  simp only [Space.runUser]
  unfold Space.mmap
  dsimp only
  rw [if_neg (by simpa using hpos), if_neg (by simpa using hlen), if_neg (by decide),
    if_neg (by decide), if_pos (by decide), if_neg (by simp [haddr, hal]), if_neg (by simp [hmapped])]
  exact hat

end Examples

/-- The first user stack of a process, `[0x7fffffdff, 0x7ffffffff)` in pages. -/
def exampleStack : Mapping := ⟨0x7fffffdff, 0x7ffffffff, 1, 0, 3, 0x42⟩

private theorem exists_createStack : ∃ s,
    Space.empty.Call exampleMachine (createStack 0x7ffffffff000 1) (.ok ()) s ∧
    exampleMachine.SmallWf s.pmap ∧ s.tree = [exampleStack] :=
  Space.exists_call (createStack 0x7ffffffff000 1) (.ok ()) [exampleStack] rfl Space.empty_smallWf
    (fun _ => rfl) (by decide +kernel) rfl (by decide +kernel)

/-- A `munmap` of the whole stack leaves it in the tree. -/
theorem untouchable_survives_munmap : ∃ s₀ s : Space, exampleStack ∈ s₀.tree ∧
    Returns (fun fuel => s₀.runUser exampleMachine fuel (.munmap 0x7fffffdff000 0x200000))
      (s, .ok 0) ∧
    exampleStack ∈ s.tree := by
  obtain ⟨s₁, hcall₁, hwf₁, htree₁⟩ := exists_createStack
  obtain ⟨s₂, hcall₂, -, -⟩ := Space.exists_call (.unmap 0x7fffffdff000 0x200000) (.ok ())
    [exampleStack] htree₁ hwf₁ (fun _ => rfl) (by decide +kernel) rfl (by decide +kernel)
  have h₀ : ((Space.memorySystem exampleMachine).restrict fun s l => l.KeepsTree s).Reachable
      Space.empty := .init rfl
  have hkeep : SpaceOp.KeepsTree Space.empty.tree (createStack 0x7ffffffff000 1) := by decide +kernel
  have h₁ := h₀.step (l := MemoryOp.kernel (createStack 0x7ffffffff000 1)) ⟨hkeep, _, hcall₁⟩
  have hunmap : SpaceOp.KeepsTree s₁.tree (.unmap 0x7fffffdff000 0x200000) := by
    rw [htree₁]
    decide +kernel
  have hmunmap := munmap_of_call hcall₂
  have hrun : (((Space.memorySystem exampleMachine).restrict fun s l =>
      l.KeepsTree s ∧ l.isUser).startAt s₁).Reachable s₂ :=
    (TransitionSystem.Reachable.init rfl).step (l := MemoryOp.user (.munmap 0x7fffffdff000 0x200000))
      ⟨⟨hunmap, rfl⟩, _, hmunmap⟩
  have hmem : exampleStack ∈ s₁.tree := htree₁ ▸ List.mem_singleton_self _
  exact ⟨s₁, s₂, hmem, hmunmap, untouchable_survives exampleMachine h₁ hrun _ hmem rfl⟩

/-- Two pages are mapped below the stack, the upper one is mapped again, which leaves an empty mapping
at the first page of the stack, and a `munmap` over that page erases the stack with it. -/
theorem stack_lost : ∃ s₀ s₁ s₂ s₃ : Space,
    (Space.memorySystem exampleMachine).Reachable s₀ ∧ exampleStack ∈ s₀.tree ∧
    exampleStack.untouchable = true ∧
    Returns (fun fuel => s₀.runUser exampleMachine fuel
      (.mmap 0x7fffffdfd000 0x2000 3 0x32 (-1) 0 none 2)) (s₁, .ok 0x7fffffdfd000) ∧
    Returns (fun fuel => s₁.runUser exampleMachine fuel
      (.mmap 0x7fffffdfe000 0x1000 3 0x32 (-1) 0 none 3)) (s₂, .ok 0x7fffffdfe000) ∧
    Returns (fun fuel => s₂.runUser exampleMachine fuel (.munmap 0x7fffffdfe000 0x2000))
      (s₃, .ok 0) ∧
    exampleStack ∉ s₃.tree := by
  obtain ⟨s₀, hcall₀, hwf₀, htree₀⟩ := exists_createStack
  obtain ⟨s₁, hcall₁, hwf₁, htree₁⟩ := Space.exists_call (.map 0x7fffffdfd000 0x2000 3 0x32 2 0)
    (.ok ()) [⟨0x7fffffdfd, 0x7fffffdff, 2, 0, 3, 0x32⟩, exampleStack] htree₀ hwf₀ (fun _ => rfl)
    (by decide +kernel) rfl (by decide +kernel)
  obtain ⟨s₂, hcall₂, hwf₂, htree₂⟩ := Space.exists_call (.map 0x7fffffdfe000 0x1000 3 0x32 3 0)
    (.ok ()) [⟨0x7fffffdfd, 0x7fffffdfe, 2, 0, 3, 0x32⟩, ⟨0x7fffffdfe, 0x7fffffdff, 3, 0, 3, 0x32⟩,
      exampleStack, ⟨0x7fffffdff, 0x7fffffdff, 2, 2, 3, 0x32⟩] htree₁ hwf₁ (fun _ => rfl)
    (by decide +kernel) rfl (by decide +kernel)
  obtain ⟨s₃, hcall₃, -, htree₃⟩ := Space.exists_call (.unmap 0x7fffffdfe000 0x2000) (.ok ())
    [⟨0x7fffffdfd, 0x7fffffdfe, 2, 0, 3, 0x32⟩] htree₂ hwf₂ (fun _ => rfl) (by decide +kernel) rfl
    (by decide +kernel)
  have h₀ : (Space.memorySystem exampleMachine).Reachable Space.empty := .init rfl
  refine ⟨s₀, s₁, s₂, s₃, h₀.step (l := MemoryOp.kernel (createStack 0x7ffffffff000 1)) ⟨_, hcall₀⟩,
    htree₀ ▸ List.mem_singleton_self _, rfl,
    mmap_of_call (by decide) (by decide) (by decide) (by decide) (by decide) ?_ hcall₁,
    mmap_of_call (by decide) (by decide) (by decide) (by decide) (by decide) ?_ hcall₂,
    munmap_of_call hcall₃, ?_⟩
  · rw [Space.isMapped, htree₀]
    decide +kernel
  · rw [Space.isMapped, htree₁]
    decide +kernel
  · rw [htree₃]
    decide +kernel

end Ilobilix.Vmm
