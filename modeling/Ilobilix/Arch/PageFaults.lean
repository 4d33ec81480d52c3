import Ilobilix.Foundation.Transition
import Mathlib.Data.Nat.Notation
import Mathlib.Logic.Function.Basic

/-!
# Page faults inside system calls

A page fault in user mode, or in the handler of a system call, goes to `handle_pfault`; any other
exception ends in a panic. `isr_handler` knows user mode by the code segment that the processor
pushes, and a system call by `in_syscall`. `syscall_handler` sets this flag before it calls the
handler and clears it afterwards.

The flag belongs to the processor and not to the thread, and `schedule` does not save it. A handler
can be preempted, so the thread that runs next finds the flag as the last one left it: `Steady` says
which switches and which entries into the kernel keep it right.

A page fault leads into the kernel as well: a thread that faults in user mode is at `trap` while
`handle_pfault` runs. The interrupt handlers of the devices run to their end and do not fault.
-/

namespace Ilobilix.Arch

/-- What `isr_handler` reads of `cpu::registers`, and `cr2`. -/
structure Regs where
  vector : ℕ
  errorCode : BitVec 64
  cs : BitVec 64
  cr2 : BitVec 64

def irq (num : ℕ) : ℕ := num + 0x20

/-- What becomes of an interrupt or exception. -/
inductive Route
  | irq (idx : ℕ)
  | pfault (addr : BitVec 64) (onWrite : Bool)
  | panic

/-- `isr_handler`, after the start of the kernel. A fault that `handle_pfault` refuses is a panic
too, which is not this function's choice. -/
def isrHandler (inSyscall : Bool) (regs : Regs) : Route :=
  if irq 0 ≤ regs.vector ∧ regs.vector ≤ 0xFF then .irq (regs.vector - irq 0)
  else if regs.vector < irq 0 then
    if regs.vector = 14 ∧ (regs.cs &&& 0x03 ≠ 0 ∨ inSyscall) then
      let byWrite := decide (regs.errorCode &&& (1 <<< 2) ≠ 0)
      .pfault regs.cr2 byWrite
    else .panic
  else .panic

/-- Where a thread is. -/
inductive Place
  | user
  /-- in `syscall_handler`, before `in_syscall` is set -/
  | entry
  /-- in the handler of the system call -/
  | handler
  /-- in `syscall_handler`, after `in_syscall` has been cleared -/
  | exit
  /-- in the kernel for a page fault in user mode -/
  | trap
  /-- a thread of the kernel -/
  | kernel
deriving DecidableEq

/-- One processor and its threads. -/
structure CpuState (T : Type*) where
  current : T
  place : T → Place
  inSyscall : Bool

inductive CpuEvent (T : Type*)
  | switch (t : T)
  | syscall | enter | leave | sysret
  | fault (regs : Regs)
  | iret

namespace CpuState

variable {T : Type*}

def here (s : CpuState T) : Place := s.place s.current

/-- The current thread raises the page fault. The processor pushes the code segment, of which the low
bits say whether it was in user mode. -/
def Raises (s : CpuState T) (regs : Regs) : Prop :=
  regs.vector = 14 ∧ (regs.cs &&& 0x03 ≠ 0 ↔ s.here = .user)

instance (s : CpuState T) (regs : Regs) : Decidable (s.Raises regs) :=
  inferInstanceAs (Decidable (_ ∧ _))

section

variable [DecidableEq T]

def go (s : CpuState T) (p : Place) : CpuState T :=
  { s with place := Function.update s.place s.current p }

/-- A step of the current thread, or the switch to another one. -/
def step (s : CpuState T) : CpuEvent T → Option (CpuState T)
  | .switch t => some { s with current := t }
  | .syscall => if s.here = .user then some (s.go .entry) else none
  | .enter => if s.here = .entry then some { s.go .handler with inSyscall := true } else none
  | .leave => if s.here = .handler then some { s.go .exit with inSyscall := false } else none
  | .sysret => if s.here = .exit then some (s.go .user) else none
  | .fault regs =>
      if s.Raises regs then
        match isrHandler s.inSyscall regs with
        | .pfault .. => some (if s.here = .user then s.go .trap else s)
        | .irq _ | .panic => none
      else none
  | .iret => if s.here = .trap then some (s.go .user) else none

end

end CpuState

/-- The runs from any threads in user mode or of the kernel. -/
def cpuSystem (T : Type*) [DecidableEq T] : TransitionSystem (CpuState T) (CpuEvent T) where
  init s := s.inSyscall = false ∧ ∀ t, s.place t = .user ∨ s.place t = .kernel
  step s e s' := s.step e = some s'

namespace CpuState

variable {T : Type*} {s s' : CpuState T} {regs : Regs}

/-- The thread is in user mode or in the handler of a system call. -/
def Demands (s : CpuState T) : Prop := s.here = .user ∨ s.here = .handler

/-- A fault there goes to `handle_pfault`, with bit 1 of the error code; any other one does not. -/
def Handled (s : CpuState T) (regs : Regs) : Prop :=
  (s.Demands → isrHandler s.inSyscall regs = .pfault regs.cr2 (regs.errorCode.getLsbD 1)) ∧
    (¬s.Demands → ∀ addr onWrite, isrHandler s.inSyscall regs ≠ .pfault addr onWrite)

/-- The flag is right, as far as it matters. -/
def Right (s : CpuState T) : Prop :=
  s.here = .user ∨ s.inSyscall = decide (s.here = .handler)

/-- Bits 1 and 2 of the error code are the same: a write in user mode or a read in the kernel. -/
def Agree (regs : Regs) : Prop := regs.errorCode.getLsbD 1 = regs.errorCode.getLsbD 2

/-- A switch leads to a thread in user mode or to one for which the flag is right, and no thread
enters the kernel from user mode while the flag is set. -/
def Steady (s : CpuState T) : CpuEvent T → Prop
  | .switch t => s.place t = .user ∨ s.inSyscall = decide (s.place t = .handler)
  | .syscall => s.inSyscall = false
  | .fault _ => s.here = .user → s.inSyscall = false
  | .enter | .leave | .sysret | .iret => True

theorem and_bit (x : BitVec 64) : decide (x &&& (1 <<< 2) ≠ 0) = x.getLsbD 2 := by
  have h : x &&& (1 <<< 2) = if x.getLsbD 2 then BitVec.twoPow 64 2 else 0#64 :=
    BitVec.and_twoPow x 2
  rw [h]
  cases x.getLsbD 2 <;> decide

/-- Where a page fault goes. -/
theorem isrHandler_of_raises (h : s.Raises regs) : isrHandler s.inSyscall regs =
    if s.here = .user ∨ s.inSyscall = true then .pfault regs.cr2 (regs.errorCode.getLsbD 2)
    else .panic := by
  obtain ⟨hv, hcs⟩ := h
  unfold isrHandler
  rw [hv, if_neg (by decide), if_pos (by decide), and_bit]
  simp only [true_and, hcs]

/-- A fault is handled right exactly when the flag and the two bits are. -/
theorem handled_iff (h : s.Raises regs) : s.Handled regs ↔ s.Right ∧ (s.Demands → Agree regs) := by
  unfold Handled Right Demands Agree
  rw [isrHandler_of_raises h]
  cases hp : s.here <;> cases hf : s.inSyscall <;> simp [eq_comm]

variable [DecidableEq T] {e : CpuEvent T}

theorem here_go (p : Place) : (s.go p).here = p :=
  Function.update_self _ _ _

/-- A step keeps the flag right exactly when it is a steady one. -/
theorem right_step_iff (h : s.Right) (hs : s.step e = some s') : s'.Right ↔ s.Steady e := by
  cases e with
  | switch t =>
      cases hs
      exact Iff.rfl
  | syscall =>
      simp only [step, Option.ite_none_right_eq_some, Option.some.injEq] at hs
      obtain ⟨-, rfl⟩ := hs
      simp only [Right, here_go]
      simp [go, Steady]
  | enter | leave | sysret | iret =>
      simp only [step, Option.ite_none_right_eq_some, Option.some.injEq] at hs
      obtain ⟨-, rfl⟩ := hs
      refine iff_of_true ?_ trivial
      simp [Right, here, go]
  | fault regs =>
      simp only [step] at hs
      split at hs
      · split at hs
        · rw [Option.some.injEq] at hs
          by_cases huser : s.here = .user
          · rw [if_pos huser] at hs
            subst hs
            simp only [Right, here_go]
            simp [go, Steady, huser]
          · rw [if_neg huser] at hs
            subst hs
            exact iff_of_true h fun hu => absurd hu huser
        · cases hs
        · cases hs
      · cases hs

theorem right_of_reachable (h : ((cpuSystem T).restrict Steady).Reachable s) : s.Right := by
  refine h.invariant (fun s ⟨hflag, hplace⟩ => ?_) fun s e s' _ hright ⟨hsteady, hs⟩ => ?_
  · obtain huser | hkernel := hplace s.current
    · exact .inl huser
    · refine .inr ?_
      rw [hflag, here, hkernel]
      rfl
  · exact (right_step_iff hright hs).mpr hsteady

/-- In a steady run, every page fault whose error code has the same bits 1 and 2 is handled right. -/
theorem faults_handled (h : ((cpuSystem T).restrict Steady).Reachable s) (hraises : s.Raises regs)
    (hagree : s.Demands → Agree regs) : s.Handled regs :=
  (handled_iff hraises).mpr ⟨right_of_reachable h, hagree⟩

/-- A write to memory in user mode, while the other thread is in the handler of a system call. -/
theorem faults_handled_write : ∃ s : CpuState Bool,
    ((cpuSystem Bool).restrict Steady).Reachable s ∧ s.place true = .handler ∧
      isrHandler s.inSyscall ⟨14, 6, 0x2B, 0x1000⟩ = .pfault 0x1000 true := by
  have h₀ : ((cpuSystem Bool).restrict Steady).Reachable ⟨true, fun _ => .user, false⟩ :=
    .init ⟨rfl, fun _ => .inl rfl⟩
  have h₁ := h₀.step (l := CpuEvent.syscall) ⟨rfl, rfl⟩
  have h₂ := h₁.step (l := CpuEvent.enter) ⟨trivial, rfl⟩
  have h₃ := h₂.step (l := CpuEvent.switch false) ⟨.inl rfl, rfl⟩
  refine ⟨_, h₃, rfl, ?_⟩
  have hagree : Agree ⟨14, 6, 0x2B, 0x1000⟩ := by
    unfold Agree
    decide
  exact (faults_handled h₃ (by decide) fun _ => hagree).1 (.inl rfl)

/-- A read in user mode is taken for a write; and, whatever the bits are, a fault in a handler ends
in a panic once another thread has returned from a system call. -/
theorem faults_not_handled :
    (¬∀ (s : CpuState Bool) (regs : Regs), (cpuSystem Bool).Reachable s → s.Raises regs →
      s.Handled regs) ∧
    ¬∀ (s : CpuState Bool) (regs : Regs), (cpuSystem Bool).Reachable s → s.Raises regs →
      Agree regs → s.Handled regs := by
  have h₀ : (cpuSystem Bool).Reachable ⟨true, fun _ => .user, false⟩ :=
    .init ⟨rfl, fun _ => .inl rfl⟩
  constructor
  · intro hall
    have hread := (hall _ ⟨14, 4, 0x2B, 0x1000⟩ h₀ (by decide)).1 (.inl rfl)
    exact absurd (Route.pfault.inj hread).2 (by decide)
  · intro hall
    have h : (cpuSystem Bool).Reachable _ := .of_foldlM (fun _ _ _ hs => hs)
      [.syscall, .enter, .switch false, .syscall, .enter, .leave, .sysret, .switch true] h₀ rfl
    have hpanic := (hall _ ⟨14, 0, 0x08, 0x1000⟩ h (by decide) rfl).1 (.inr rfl)
    cases hpanic

end CpuState

end Ilobilix.Arch
