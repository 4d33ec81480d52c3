import Ilobilix.Foundation.Transition
import Ilobilix.Lib.Spinlock

/-!
# Preemption and the run queue's lock

The run queue of a processor is protected by a `spinlock_preempt`: `lock` takes the ticket lock and
then calls `sched::disable`, `unlock` serves the next ticket and then calls `sched::enable`. The
timer interrupt runs `schedule`, which gives up if preemption is disabled and otherwise locks the
queue itself. If it interrupted a thread that holds the lock, it spins for ever.

The model has the threads of one processor, instruction by instruction, the timer interrupt between
any two of them, `schedule` with its own uses of the lock, and the other processors as holders of
tickets. It starts after `initialised` is set, when `schedule` can run. The order in `lock` leaves a
gap: with the ticket taken and preemption not disabled yet, an interrupt passes the check.
-/

namespace Ilobilix.Scheduler

open Ilobilix.Lib

/-- Where a thread is in its use of the queue's lock: what it does next. `locking` tells the calls
of `disable` and `enable` inside `lock` and `unlock` from those of the thread itself. -/
inductive QueuePc
  /-- Outside `lock`, `unlock`, `disable` and `enable`, without the lock. -/
  | out
  | spin (ticket : ℕ)
  /-- `disable` before it reads `in_scheduler`. -/
  | disable (locking : Bool)
  /-- `disable` before the `fetch_add` on `preemption`. -/
  | fetchAdd (locking : Bool)
  /-- Between `lock` and `unlock`. -/
  | holding
  /-- `enable` before it reads `in_scheduler`. -/
  | enable (locking : Bool)
  /-- `enable` before it reads `preemption`. -/
  | load (locking : Bool)
  | compareExchange (locking : Bool) (expected : ℕ)

/-- Where `schedule` is. -/
inductive SchedulePc
  /-- The thread runs. -/
  | away
  /-- Entered by the interrupt, before the check of `preemption`. -/
  | check
  /-- The check is passed, `in_scheduler` is set next. -/
  | passed
  | spin (ticket : ℕ)
  | holding
  /-- The queue is unlocked: `enqueue` of the current thread, or the switch to the next one. -/
  | found
  | enqueueSpin (ticket : ℕ)
  | enqueueHolding
  | switch
  deriving DecidableEq

structure PreemptState (T : Type*) where
  lock : Spinlock
  /-- The tickets the other processors hold. -/
  others : List ℕ
  preemption : ℕ
  inScheduler : Bool
  schedule : SchedulePc
  current : T
  pc : T → QueuePc
  /-- How often the thread itself has called `disable` and not `enable`. -/
  disabled : T → ℕ

inductive PreemptStep (T : Type*)
  | lock
  | unlock
  | disable
  | enable
  /-- The current thread goes on inside one of the calls. -/
  | run
  | timer
  /-- `schedule` goes on; `next` is the thread it switches to. -/
  | schedule (enqueue : Bool) (next : T)
  | otherTake
  | otherServe

namespace PreemptState

variable {T : Type*} [DecidableEq T]

def setPc (s : PreemptState T) (pc : QueuePc) : PreemptState T :=
  { s with pc := Function.update s.pc s.current pc }

/-- The return of `disable`. -/
def disableDone (s : PreemptState T) (locking : Bool) : PreemptState T :=
  if locking then s.setPc .holding
  else { s.setPc .out with
    disabled := Function.update s.disabled s.current (s.disabled s.current + 1) }

/-- The return of `enable`. -/
def enableDone (s : PreemptState T) (locking : Bool) : PreemptState T :=
  if locking then s.setPc .out
  else { s.setPc .out with
    disabled := Function.update s.disabled s.current (s.disabled s.current - 1) }

/-- The next instruction of the current thread inside `lock`, `unlock`, `disable` or `enable`. -/
def run (s : PreemptState T) : Option (PreemptState T) :=
  match s.pc s.current with
  | .out | .holding => none
  | .spin ticket => if s.lock.servingTicket = ticket then some (s.setPc (.disable true)) else none
  | .disable locking =>
      if s.inScheduler then some (s.disableDone locking) else some (s.setPc (.fetchAdd locking))
  | .fetchAdd locking => some { s.disableDone locking with preemption := s.preemption + 1 }
  | .enable locking =>
      if s.inScheduler then some (s.enableDone locking) else some (s.setPc (.load locking))
  | .load locking => some (s.setPc (.compareExchange locking s.preemption))
  | .compareExchange locking expected =>
      if expected = 0 then some (s.enableDone locking)
      else if s.preemption = expected then
        some { s.enableDone locking with preemption := expected - 1 }
      else some (s.setPc (.compareExchange locking s.preemption))

/-- The next step of `schedule`. `disable` and `enable` do nothing while `in_scheduler` is set. -/
def runSchedule (s : PreemptState T) (enqueue : Bool) (next : T) : Option (PreemptState T) :=
  match s.schedule with
  | .away => none
  | .check => some { s with schedule := if 0 < s.preemption then .away else .passed }
  | .passed =>
      some { s with inScheduler := true, schedule := .spin s.lock.nextTicket, lock := s.lock.take }
  | .spin ticket =>
      if s.lock.servingTicket = ticket then some { s with schedule := .holding } else none
  | .holding => some { s with schedule := .found, lock := s.lock.unlock.1 }
  | .found =>
      if enqueue then
        some { s with schedule := .enqueueSpin s.lock.nextTicket, lock := s.lock.take }
      else some { s with schedule := .switch }
  | .enqueueSpin ticket =>
      if s.lock.servingTicket = ticket then some { s with schedule := .enqueueHolding } else none
  | .enqueueHolding => some { s with schedule := .switch, lock := s.lock.unlock.1 }
  | .switch => some { s with schedule := .away, inScheduler := false, current := next }

/-- A call of the current thread, which runs and is inside none of the calls. -/
def call (s : PreemptState T) : PreemptStep T → Option (PreemptState T)
  | .lock =>
      match s.pc s.current with
      | .out => some { s.setPc (.spin s.lock.nextTicket) with lock := s.lock.take }
      | _ => none
  | .unlock =>
      match s.pc s.current with
      | .holding =>
          -- `unlock` gives up without `enable` if the lock is not locked.
          if s.lock.isLocked then some { s.setPc (.enable true) with lock := s.lock.unlock.1 }
          else some (s.setPc .out)
      | _ => none
  | .disable =>
      match s.pc s.current with
      | .out => some (s.setPc (.disable false))
      | _ => none
  | .enable =>
      match s.pc s.current with
      | .out => if 0 < s.disabled s.current then some (s.setPc (.enable false)) else none
      | _ => none
  | .run => s.run
  | _ => none

def step (s : PreemptState T) : PreemptStep T → Option (PreemptState T)
  | .timer =>
      match s.schedule with
      | .away => some { s with schedule := .check }
      | _ => none
  | .schedule enqueue next => s.runSchedule enqueue next
  | .otherTake =>
      some { s with lock := s.lock.take, others := s.lock.nextTicket :: s.others }
  | .otherServe =>
      if s.lock.servingTicket ∈ s.others then
        some { s with lock := s.lock.unlock.1, others := s.others.erase s.lock.servingTicket }
      else none
  | e =>
      match s.schedule with
      | .away => s.call e
      | _ => none

/-- The queue's lock has been given to thread `t`, and `t` has not unlocked it. -/
def Holds (s : PreemptState T) (t : T) : Prop :=
  match s.pc t with
  | .spin ticket => s.lock.servingTicket = ticket
  | .disable true | .fetchAdd true | .holding => True
  | _ => False

end PreemptState

/-- The threads of one processor, from the first time one of them runs. -/
def preemptSystem (T : Type*) [DecidableEq T] :
    TransitionSystem (PreemptState T) (PreemptStep T) where
  init s := s.others = [] ∧ s.lock = .new ∧ s.preemption = 0 ∧ s.inScheduler = false ∧
    s.schedule = .away ∧ (∀ t, s.pc t = .out) ∧ ∀ t, s.disabled t = 0
  step s e s' := s.step e = some s'

/-! ## The invariant -/

namespace QueuePc

/-- The thread has a ticket and is on its way to disabling preemption. -/
def locking : QueuePc → Bool
  | .spin _ | .disable true | .fetchAdd true => true
  | _ => false

/-- What the thread has added to `preemption` inside `lock` and not taken back inside `unlock`. -/
def disables : QueuePc → ℕ
  | .holding | .enable true | .load true | .compareExchange true _ => 1
  | _ => 0

end QueuePc

namespace PreemptState

variable {T : Type*}

/-- The timer does not interrupt `lock` between taking the ticket and disabling preemption, unless
the thread had disabled it before. -/
def TimerInOrder (s : PreemptState T) : PreemptStep T → Prop
  | .timer => (s.pc s.current).locking = true → 0 < s.preemption
  | _ => True

instance (s : PreemptState T) : (e : PreemptStep T) → Decidable (s.TimerInOrder e)
  | .timer => inferInstanceAs (Decidable (_ = true → 0 < s.preemption))
  | .lock | .unlock | .disable | .enable | .run | .schedule _ _ | .otherTake | .otherServe =>
      isTrue trivial

/-- `preemption` covers what the current thread has disabled, and the other threads have disabled
nothing: they were switched away from when it was zero. -/
structure Inv (s : PreemptState T) : Prop where
  current : (s.pc s.current).disables + s.disabled s.current ≤ s.preemption
  other : ∀ t, t ≠ s.current → (s.pc t).disables + s.disabled t = 0
  inScheduler : s.schedule = .away ∨ s.schedule = .check ∨ s.schedule = .passed →
    s.inScheduler = false
  zero : s.schedule ≠ .away → s.schedule ≠ .check → s.preemption = 0
  locking : s.schedule = .check ∨ s.schedule = .passed →
    (s.pc s.current).locking = true → 0 < s.preemption

variable [DecidableEq T] {s s' : PreemptState T}

/-- A step of the current thread, while `schedule` is away. -/
theorem Inv.runThread (h : s.Inv) (haway : s.schedule = .away) (lock : Spinlock) (pc : QueuePc)
    (disabled preemption : ℕ) (hle : pc.disables + disabled ≤ preemption) :
    Inv { s with
      lock := lock, pc := Function.update s.pc s.current pc,
      disabled := Function.update s.disabled s.current disabled, preemption := preemption } := by
  refine ⟨?_, fun t ht => ?_, fun _ => h.inScheduler (.inl haway), fun hne => ?_, fun hc => ?_⟩
  · simpa using hle
  · simpa [ht] using h.other t ht
  · exact absurd haway hne
  · rw [haway] at hc
    simp at hc

/-- A step that only moves the thread and the lock. -/
theorem Inv.setPc (h : s.Inv) (haway : s.schedule = .away) {lock : Spinlock} {pc : QueuePc}
    (hle : pc.disables ≤ (s.pc s.current).disables) : Inv { s.setPc pc with lock := lock } := by
  have hcur := h.current
  have h' := h.runThread haway lock pc (s.disabled s.current) s.preemption (by omega)
  rwa [Function.update_eq_self] at h'

/-- `disable` returns after the `fetch_add`. -/
theorem Inv.disableDone (h : s.Inv) (haway : s.schedule = .away) (locking : Bool)
    (hpc : s.pc s.current = .fetchAdd locking) :
    Inv { s.disableDone locking with preemption := s.preemption + 1 } := by
  have hcur := h.current
  simp only [hpc, QueuePc.disables] at hcur
  cases locking with
  | true =>
      have h' := h.runThread haway s.lock .holding (s.disabled s.current) (s.preemption + 1)
        (by simp only [QueuePc.disables]; omega)
      rwa [Function.update_eq_self] at h'
  | false =>
      exact h.runThread haway s.lock .out (s.disabled s.current + 1) (s.preemption + 1)
        (by simp only [QueuePc.disables]; omega)

/-- `enable` returns, having taken back at most one. -/
theorem Inv.enableDone (h : s.Inv) (haway : s.schedule = .away) (locking : Bool) {expected : ℕ}
    (hpc : s.pc s.current = .compareExchange locking expected) {preemption : ℕ}
    (hle : s.preemption ≤ preemption + 1) :
    Inv { s.enableDone locking with preemption := preemption } := by
  have hcur := h.current
  cases locking with
  | true =>
      simp only [hpc, QueuePc.disables] at hcur
      have h' := h.runThread haway s.lock .out (s.disabled s.current) preemption
        (by simp only [QueuePc.disables]; omega)
      rwa [Function.update_eq_self] at h'
  | false =>
      simp only [hpc, QueuePc.disables] at hcur
      exact h.runThread haway s.lock .out (s.disabled s.current - 1) preemption
        (by simp only [QueuePc.disables]; omega)

theorem Inv.run (h : s.Inv) (haway : s.schedule = .away) (hs : s.run = some s') : s'.Inv := by
  have hsched := h.inScheduler (.inl haway)
  simp only [PreemptState.run] at hs
  cases hpc : s.pc s.current <;> simp only [hpc, hsched, Bool.false_eq_true, if_false] at hs
  case out | holding => cases hs
  case spin ticket =>
    split at hs
    · cases hs
      exact h.setPc haway (by simp [QueuePc.disables])
    · cases hs
  case disable locking =>
    cases hs
    exact h.setPc haway (by simp [QueuePc.disables])
  case fetchAdd locking =>
    cases hs
    exact h.disableDone haway locking hpc
  case enable locking | load locking =>
    cases hs
    exact h.setPc haway (by cases locking <;> simp [hpc, QueuePc.disables])
  case compareExchange locking expected =>
    split at hs
    · cases hs
      have h' := h.enableDone haway locking hpc (Nat.le_succ s.preemption)
      cases locking <;> exact h'
    · split at hs
      · rename_i hne heq
        cases hs
        exact h.enableDone haway locking hpc (by omega)
      · cases hs
        exact h.setPc haway (by cases locking <;> simp [hpc, QueuePc.disables])

theorem Inv.call {e : PreemptStep T} (h : s.Inv) (haway : s.schedule = .away)
    (hs : s.call e = some s') : s'.Inv := by
  cases e <;> simp only [PreemptState.call] at hs
  case run => exact h.run haway hs
  case lock | disable =>
    split at hs
    · cases hs
      exact h.setPc haway (by simp [QueuePc.disables])
    · cases hs
  case unlock =>
    split at hs
    · rename_i hpc
      split at hs <;> cases hs <;> exact h.setPc haway (by simp [hpc, QueuePc.disables])
    · cases hs
  case enable =>
    split at hs
    · split at hs
      · cases hs
        exact h.setPc haway (by simp [QueuePc.disables])
      · cases hs
    · cases hs
  case timer | schedule | otherTake | otherServe => cases hs

/-- `schedule` passes its check only with `preemption` at zero, and leaves it alone. -/
theorem Inv.runSchedule {enqueue : Bool} {next : T} (h : s.Inv)
    (hs : s.runSchedule enqueue next = some s') : s'.Inv := by
  have hin : ∀ {schedule : SchedulePc} {lock : Spinlock} {inScheduler : Bool},
      s.preemption = 0 → schedule ≠ .away → schedule ≠ .check → schedule ≠ .passed →
      Inv { s with schedule := schedule, lock := lock, inScheduler := inScheduler } :=
    fun hzero h1 h2 h3 => ⟨h.current, h.other, by simp [h1, h2, h3], fun _ _ => hzero,
      by simp [h2, h3]⟩
  simp only [PreemptState.runSchedule] at hs
  cases hsched : s.schedule <;> simp only [hsched] at hs
  case away => cases hs
  case check =>
    cases hs
    by_cases hpos : 0 < s.preemption
    · simp only [if_pos hpos]
      exact ⟨h.current, h.other, fun _ => h.inScheduler (.inr (.inl hsched)), by simp, by simp⟩
    · simp only [if_neg hpos]
      exact ⟨h.current, h.other, fun _ => h.inScheduler (.inr (.inl hsched)),
        fun _ _ => Nat.eq_zero_of_not_pos hpos, fun _ => h.locking (.inl hsched)⟩
  all_goals have hzero := h.zero (by simp [hsched]) (by simp [hsched])
  case passed | holding | enqueueHolding =>
    cases hs
    exact hin hzero (by simp) (by simp) (by simp)
  case spin ticket | enqueueSpin ticket =>
    split at hs
    · cases hs
      exact hin hzero (by simp) (by simp) (by simp)
    · cases hs
  case found =>
    split at hs <;> cases hs <;> exact hin hzero (by simp) (by simp) (by simp)
  case switch =>
    cases hs
    -- Nobody has disabled anything, so any thread may go on.
    have hall : ∀ t, (s.pc t).disables + s.disabled t = 0 := fun t => by
      by_cases ht : t = s.current
      · subst ht
        have := h.current
        omega
      · exact h.other t ht
    refine ⟨?_, fun t _ => hall t, fun _ => rfl, by simp, by simp⟩
    simp only
    rw [hall next]
    exact Nat.zero_le _

theorem Inv.step {e : PreemptStep T} (h : s.Inv) (hin : s.TimerInOrder e)
    (hs : s.step e = some s') : s'.Inv := by
  have hcall : ∀ {e : PreemptStep T}, (match s.schedule with
      | .away => s.call e
      | _ => none) = some s' → s'.Inv := fun hs => by
    split at hs
    · exact h.call ‹_› hs
    · cases hs
  cases e <;> simp only [PreemptState.step] at hs
  case lock | unlock | disable | enable | run => exact hcall hs
  case timer =>
    split at hs
    · rename_i haway
      cases hs
      exact ⟨h.current, h.other, fun _ => h.inScheduler (.inl haway), by simp, fun _ => hin⟩
    · cases hs
  case schedule enqueue next => exact h.runSchedule hs
  case otherTake =>
    cases hs
    exact ⟨h.current, h.other, h.inScheduler, h.zero, h.locking⟩
  case otherServe =>
    split at hs
    · cases hs
      exact ⟨h.current, h.other, h.inScheduler, h.zero, h.locking⟩
    · cases hs

theorem inv_of_reachable (h : ((preemptSystem T).restrict TimerInOrder).Reachable s) : s.Inv := by
  refine h.invariant (fun s hs => ?_) fun s e s' _ hI hs => hI.step hs.1 hs.2
  obtain ⟨-, -, hpreempt, hsched, haway, hpc, hdis⟩ := hs
  refine ⟨by simp [hpc, hdis, QueuePc.disables], fun t _ => by simp [hpc, hdis, QueuePc.disables],
    fun _ => hsched, fun hne => absurd haway hne, fun hc => ?_⟩
  rw [haway] at hc
  simp at hc

end PreemptState

/-- When `schedule` has passed its check, the thread it interrupted does not hold the queue's
lock. -/
theorem schedule_not_deadlocked {T : Type*} [DecidableEq T] {s : PreemptState T}
    (h : ((preemptSystem T).restrict PreemptState.TimerInOrder).Reachable s)
    (hpassed : s.schedule = .passed) : ¬s.Holds s.current := by
  have hI := PreemptState.inv_of_reachable h
  have hzero := hI.zero (by simp [hpassed]) (by simp [hpassed])
  have hlocking := hI.locking (.inr hpassed)
  have hdis := hI.current
  rw [hzero] at hlocking hdis
  intro hholds
  unfold PreemptState.Holds at hholds
  split at hholds <;> simp_all [QueuePc.locking, QueuePc.disables]

/-- Threads that have used no lock. -/
def PreemptState.boot {T : Type*} (current : T) : PreemptState T :=
  ⟨.new, [], 0, false, .away, current, fun _ => .out, fun _ => 0⟩

/-- The timer interrupts a thread that holds the lock, which makes `schedule` give up, and once more
after the thread has unlocked it. -/
theorem schedule_not_deadlocked_after_unlock : ∃ s : PreemptState Unit,
    ((preemptSystem Unit).restrict PreemptState.TimerInOrder).Reachable s ∧
      s.schedule = .passed ∧ ¬s.Holds s.current := by
  have h : ((preemptSystem Unit).restrict PreemptState.TimerInOrder).Reachable _ := .of_foldlM
    (f := fun s e => if s.TimerInOrder e then s.step e else none)
    (fun s e s' h => by split at h; exacts [⟨‹_›, h⟩, by cases h])
    [.lock, .run, .run, .run, .timer, .schedule false (), .unlock, .run, .run, .run, .timer,
      .schedule false ()]
    (.init (s := .boot ()) ⟨rfl, rfl, rfl, rfl, rfl, fun _ => rfl, fun _ => rfl⟩) rfl
  exact ⟨_, h, rfl, schedule_not_deadlocked h rfl⟩

/-- The timer interrupts `lock` with the ticket taken and preemption still enabled: `schedule` passes
its check, and its own `lock` waits for a thread that cannot run. -/
theorem schedule_deadlocks : ∃ s : PreemptState Unit, (preemptSystem Unit).Reachable s ∧
    s.schedule = .passed ∧ s.Holds s.current := by
  have h : (preemptSystem Unit).Reachable _ := .of_foldlM (f := PreemptState.step)
    (fun _ _ _ h => h) [.lock, .run, .timer, .schedule false ()]
    (.init (s := .boot ()) ⟨rfl, rfl, rfl, rfl, rfl, fun _ => rfl, fun _ => rfl⟩) rfl
  exact ⟨_, h, rfl, trivial⟩

end Ilobilix.Scheduler
