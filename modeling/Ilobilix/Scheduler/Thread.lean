import Ilobilix.Memory.Vmm.Fault

/-!
# User threads and their stacks

`thread::create` maps a new object below `next_stack_top` and marks the mapping as untouchable; the
thread keeps a weak reference to the object. The destructor calls `vmspace::unmap` with the object and
then expects one reference less.

That overload of `unmap` skips untouchable mappings, and every mapping of a stack is one, in any state
that a run reaches. So it never removes anything, the count stays, and the destructor panics:
`destroy_panics`.
-/

namespace Ilobilix.Scheduler

open Vmm

/-- A user thread: `ustack_obj` is the identity of the object that its weak pointer refers to. -/
structure UserThread where
  tid : ℕ
  ustackObj : ℕ
  ustackTop : UInt64
deriving DecidableEq, Repr

/-- A process with its user threads. -/
structure Process where
  space : Space
  threads : List UserThread
  nextTid : ℕ
  nextStackTop : UInt64
  /-- the number of objects made so far; the next one gets this identity -/
  nextObject : ℕ

/-- `initial_stck_top`. -/
def initialStackTop : UInt64 := 0x7ffffffff000

namespace Process

/-- `thread::create` of a user thread. -/
def create (pm : Pagemap) (fuel : ℕ) (p : Process) : Except Stop Process :=
  let vaddr := p.nextStackTop - ustackSize
  match p.space.run pm fuel (createStack p.nextStackTop p.nextObject) with
  | .error stop => .error stop
  | .ok (_, .error _) => .error .panic
  | .ok (space, .ok ()) =>
      .ok {
        space := space
        threads := p.threads ++ [⟨p.nextTid, p.nextObject, vaddr + ustackSize⟩]
        nextTid := p.nextTid + 1
        nextStackTop := vaddr
        nextObject := p.nextObject + 1 }

/-- The destructor of a user thread; `external` counts the references to an object outside of the tree.
`lock()` of an object without references is null, on which `unmap` panics. -/
def destroy (pm : Pagemap) (fuel : ℕ) (external : ℕ → ℕ) (thread : UserThread) (p : Process) :
    Except Stop Process :=
  let objRef := p.space.useCount external thread.ustackObj
  if objRef = 0 then .error .panic
  else
    match p.space.unmapObj pm fuel thread.ustackObj with
    | .error stop => .error stop
    | .ok (_, .error _) => .error .panic
    | .ok (space, .ok ()) =>
        if space.useCount external thread.ustackObj ≠ objRef - 1 then .error .panic
        else .ok { p with space := space, threads := p.threads.erase thread }

end Process

/-- What happens to a process. The program loader maps segments with objects of their own. -/
inductive ProcessOp
  | create
  | destroy (external : ℕ → ℕ) (thread : UserThread)
  | load (address length : UInt64) (prot : BitVec 8)
  | user (op : UserOp)
  | fault (addr : UInt64) (onWrite : Bool) (useCount requested : ℕ)
  /-- an object is made elsewhere, for a file -/
  | object

/-- `mmap` makes a new object or takes that of a file, which is no stack. -/
def Process.Provides (p : Process) : UserOp → Prop
  | .mmap _ _ _ _ _ _ file memobject =>
      memobject = p.nextObject ∧ ∀ obj, file = some (some obj) →
        obj < p.nextObject ∧ ∀ t ∈ p.threads, obj ≠ t.ustackObj
  | _ => True

/-- The runs of a process. -/
def Process.system (pm : Pagemap) : TransitionSystem Process ProcessOp where
  init p := p.space.tree = [] ∧ p.threads = [] ∧ p.nextStackTop = initialStackTop
  step p l p' :=
    match l with
    | .create => Returns (fun fuel => p.create pm fuel) p'
    | .destroy external thread =>
        thread ∈ p.threads ∧ Returns (fun fuel => p.destroy pm fuel external thread) p'
    | .load address length prot => ∃ space,
        p.space.Call pm (.map address length prot 2 p.nextObject 0) (.ok ()) space ∧
        p' = { p with space := space, nextObject := p.nextObject + 1 }
    | .user op => p.Provides op ∧ ∃ space r,
        Returns (fun fuel => p.space.runUser pm fuel op) (space, r) ∧
        p' = { p with space := space, nextObject := p.nextObject + 1 }
    | .fault addr onWrite useCount requested => ∃ space r,
        Returns (fun fuel => p.space.handlePfault pm fuel addr.toNat onWrite useCount requested)
          (space, r) ∧ p' = { p with space := space }
    | .object => p' = { p with nextObject := p.nextObject + 1 }

/-! ## Stacks stay untouchable -/

/-- A mapping may have this object and these flags: the object is known, and if it is a stack, the
mapping is untouchable. -/
def Process.Allows (p : Process) (obj : ℕ) (flags : BitVec 8) : Prop :=
  obj < p.nextObject ∧ ((∃ t ∈ p.threads, obj = t.ustackObj) → flags.getLsbD 6 = true)

/-- Every mapping of a stack is untouchable. -/
structure StacksUntouchable (p : Process) : Prop where
  mappings : ∀ e ∈ p.space.tree, p.Allows e.obj e.flags
  threads : ∀ t ∈ p.threads, t.ustackObj < p.nextObject

section Stacks

variable {pm : Pagemap} {p p' : Process} {fuel : ℕ} {space : Space}

/-- More objects, the same threads. -/
theorem Process.Allows.mono {obj n : ℕ} {flags : BitVec 8} (h : p.Allows obj flags)
    (hn : p.nextObject ≤ n) : { p with space := space, nextObject := n }.Allows obj flags :=
  ⟨lt_of_lt_of_le h.1 hn, h.2⟩

/-- The tree has changed to one with allowed mappings only. -/
theorem StacksUntouchable.setSpace {n : ℕ} (h : StacksUntouchable p) (hn : p.nextObject ≤ n)
    (hspace : ∀ e ∈ space.tree, { p with space := space, nextObject := n }.Allows e.obj e.flags) :
    StacksUntouchable { p with space := space, nextObject := n } :=
  ⟨hspace, fun t ht => lt_of_lt_of_le (h.threads t ht) hn⟩

/-- A new object is no stack. -/
theorem StacksUntouchable.allows_new (h : StacksUntouchable p) (flags : BitVec 8) :
    { p with space := space, nextObject := p.nextObject + 1 }.Allows p.nextObject flags := by
  refine ⟨Nat.lt_succ_self _, ?_⟩
  rintro ⟨t, ht, heq⟩
  exact absurd heq (h.threads t ht).ne'

/-- `thread::create` maps the stack as untouchable. -/
theorem StacksUntouchable.create (h : StacksUntouchable p) (hcreate : p.create pm fuel = .ok p') :
    StacksUntouchable p' := by
  unfold Process.create at hcreate
  dsimp only at hcreate
  split at hcreate
  · cases hcreate
  · cases hcreate
  · rename_i space hrun
    cases hcreate
    refine ⟨Space.forall_of_run (fun e he => ?_) ?_ hrun, fun t ht => ?_⟩
    · obtain ⟨hlt, hstack⟩ := h.mappings e he
      refine ⟨Nat.lt_succ_of_lt hlt, ?_⟩
      rintro ⟨t, ht, heq⟩
      rcases List.mem_append.mp ht with ht | ht
      · exact hstack ⟨t, ht, heq⟩
      · rw [List.mem_singleton] at ht
        subst ht
        exact absurd heq hlt.ne
    · rintro address length prot flags obj offset hop
      cases hop
      exact ⟨Nat.lt_succ_self _, fun _ => rfl⟩
    · rcases List.mem_append.mp ht with ht | ht
      · exact Nat.lt_succ_of_lt (h.threads t ht)
      · rw [List.mem_singleton] at ht
        subst ht
        exact Nat.lt_succ_self _

/-- System calls map new objects and those of files. -/
theorem StacksUntouchable.user (h : StacksUntouchable p) {op : UserOp} {r : Except Errno ℕ}
    (hop : p.Provides op) (hrun : p.space.runUser pm fuel op = .ok (space, r)) :
    StacksUntouchable { p with space := space, nextObject := p.nextObject + 1 } := by
  refine h.setSpace (Nat.le_succ _) ?_
  refine runUser_rule (P := fun tree => ∀ e ∈ tree,
    { p with space := space, nextObject := p.nextObject + 1 }.Allows e.obj e.flags) ?_
    (fun e he => (h.mappings e he).mono (Nat.le_succ _)) hrun
  intro s call s' r hcall hs hrun
  refine Space.forall_of_run hs ?_ hrun
  rintro address length prot flags obj offset rfl
  cases op with
  | mmap addr len prot' flags' fd off file memobject =>
      obtain ⟨rfl, hfile⟩ := hop
      rcases hcall with rfl | hobj
      · exact h.allows_new flags
      · obtain ⟨hlt, hno⟩ := hfile obj hobj
        exact ⟨Nat.lt_succ_of_lt hlt, fun ⟨t, ht, heq⟩ => absurd heq (hno t ht)⟩
  | munmap => exact hcall.elim
  | mprotect => exact hcall.elim

/-- `unmap` of a stack removes nothing. -/
theorem StacksUntouchable.unmapObj (h : StacksUntouchable p) {t : UserThread} (ht : t ∈ p.threads) :
    p.space.unmapObj pm fuel t.ustackObj = .ok (p.space, .ok ()) := by
  have hnil : (p.space.tree.filter fun entry => entry.obj == t.ustackObj && !entry.untouchable) = [] := by
    rw [List.filter_eq_nil_iff]
    intro e he hand
    obtain ⟨hobj, hu⟩ := Bool.and_eq_true_iff.mp hand
    have huntouchable : e.untouchable = true := (h.mappings e he).2 ⟨t, ht, eq_of_beq hobj⟩
    rw [huntouchable] at hu
    cases hu
  rw [Space.unmapObj, hnil]
  rfl

theorem StacksUntouchable.destroy (h : StacksUntouchable p) {t : UserThread} (ht : t ∈ p.threads)
    (external : ℕ → ℕ) : p.destroy pm fuel external t = .error .panic := by
  rw [Process.destroy]
  split
  · rfl
  · rename_i hne
    rw [h.unmapObj ht]
    dsimp only
    rw [if_pos]
    -- the count has not changed and is not zero
    omega

end Stacks

theorem stacksUntouchable_of_reachable {pm : Pagemap} {p : Process}
    (h : (Process.system pm).Reachable p) : StacksUntouchable p := by
  refine h.invariant (fun p hp => ?_) ?_
  · obtain ⟨htree, hthreads, -⟩ := hp
    refine ⟨fun e he => ?_, fun t ht => ?_⟩
    · rw [htree] at he
      cases he
    · rw [hthreads] at ht
      cases ht
  · intro p l p' _ hp hstep
    cases l with
    | create =>
        obtain ⟨N, hN⟩ := hstep
        exact hp.create (hN N le_rfl)
    | destroy external thread =>
        obtain ⟨ht, N, hN⟩ := hstep
        have hret := hN N le_rfl
        dsimp only at hret
        rw [hp.destroy ht] at hret
        cases hret
    | load address length prot =>
        obtain ⟨space, ⟨N, hN⟩, rfl⟩ := hstep
        refine hp.setSpace (Nat.le_succ _) (Space.forall_of_run
          (fun e he => (hp.mappings e he).mono (Nat.le_succ _)) ?_ (hN N le_rfl))
        rintro address length prot flags obj offset hop
        cases hop
        exact hp.allows_new 2
    | user op =>
        obtain ⟨hop, space, r, ⟨N, hN⟩, rfl⟩ := hstep
        exact hp.user hop (hN N le_rfl)
    | fault addr onWrite useCount requested =>
        obtain ⟨space, r, ⟨N, hN⟩, rfl⟩ := hstep
        refine hp.setSpace le_rfl fun e he => ?_
        rw [Space.handlePfault_tree (hN N le_rfl)] at he
        exact hp.mappings e he
    | object =>
        cases hstep
        exact hp.setSpace (Nat.le_succ _) fun e he => (hp.mappings e he).mono (Nat.le_succ _)

/-- In any state that a run reaches, destroying any of the user threads panics. -/
theorem destroy_panics (pm : Pagemap) {p : Process} (h : (Process.system pm).Reachable p)
    {thread : UserThread} (hthread : thread ∈ p.threads) (external : ℕ → ℕ) :
    Stops (fun fuel => p.destroy pm fuel external thread) .panic :=
  ⟨0, fun _ _ => (stacksUntouchable_of_reachable h).destroy hthread external⟩

/-- A `create` whose `map` succeeds. -/
private theorem Process.create_of_call {pm : Pagemap} {p : Process} {space : Space}
    (h : p.space.Call pm (createStack p.nextStackTop p.nextObject) (.ok ()) space) :
    Returns (fun fuel => p.create pm fuel) {
      space := space
      threads := p.threads ++
        [⟨p.nextTid, p.nextObject, p.nextStackTop - ustackSize + ustackSize⟩]
      nextTid := p.nextTid + 1
      nextStackTop := p.nextStackTop - ustackSize
      nextObject := p.nextObject + 1 } := by
  obtain ⟨N, hN⟩ := h
  refine ⟨N, fun fuel hfuel => ?_⟩
  have hrun := hN fuel hfuel
  dsimp only at hrun
  simp only [Process.create, hrun]

/-- A process without threads. -/
def exampleProcess : Process := ⟨Space.empty, [], 1, initialStackTop, 0⟩

/-- The first thread of a process. -/
def exampleThread : UserThread := ⟨1, 0, initialStackTop⟩

private theorem exists_create : ∃ p : Process,
    (Process.system exampleMachine).Run [.create] p ∧ p.threads = [exampleThread] ∧
    p.space.tree = [⟨0x7fffffdff, 0x7ffffffff, 0, 0, 3, 0x42⟩] := by
  obtain ⟨space, hcall, -, htree⟩ := Space.exists_call
    (createStack initialStackTop 0) (.ok ()) [⟨0x7fffffdff, 0x7ffffffff, 0, 0, 3, 0x42⟩] rfl
    Space.empty_smallWf (fun _ => rfl) (by decide +kernel) rfl (by decide +kernel)
  have h₀ : (Process.system exampleMachine).Run [] exampleProcess := .init ⟨rfl, rfl, rfl⟩
  exact ⟨_, h₀.step (l := ProcessOp.create) (Process.create_of_call hcall), rfl, htree⟩

theorem destroy_panics_first : ∃ p : Process, exampleThread ∈ p.threads ∧
    Stops (fun fuel => p.destroy exampleMachine fuel (fun _ => 0) exampleThread) .panic := by
  obtain ⟨p, hrun, hthreads, -⟩ := exists_create
  have hmem : exampleThread ∈ p.threads := hthreads ▸ List.mem_singleton_self _
  exact ⟨p, hmem, destroy_panics exampleMachine hrun.reachable hmem _⟩

/-- A thread is created and destroyed: the mapping of its stack stays and the destructor panics. -/
theorem create_not_undone : ∃ p : Process,
    (Process.system exampleMachine).Run [.create] p ∧ exampleThread ∈ p.threads ∧
    (∀ fuel, p.space.unmapObj exampleMachine fuel exampleThread.ustackObj = .ok (p.space, .ok ())) ∧
    p.space.useCount (fun _ => 0) exampleThread.ustackObj = 1 ∧
    ∀ fuel, p.destroy exampleMachine fuel (fun _ => 0) exampleThread = .error .panic := by
  obtain ⟨p, hrun, hthreads, htree⟩ := exists_create
  have hmem : exampleThread ∈ p.threads := hthreads ▸ List.mem_singleton_self _
  have hstacks := stacksUntouchable_of_reachable hrun.reachable
  refine ⟨p, hrun, hmem, fun fuel => hstacks.unmapObj hmem, ?_, fun fuel => hstacks.destroy hmem _⟩
  rw [Space.useCount, htree]
  rfl

end Ilobilix.Scheduler
