import Ilobilix.Foundation.Transition
import Ilobilix.Scheduler.Queues
import Mathlib.Algebra.GroupWithZero.Nat
import Mathlib.Data.Int.Notation

/-!
# Fair-share accounting

`schedule` charges the thread it interrupts for the time since its `schedule_time` stamp, weighted by
its priority, and stamps the thread it goes on with. The charge is right if the stamp is the time at
which the thread was switched to. The stamp is only written if the thread that is switched away from
is not the idle thread: a thread that follows the idle thread keeps its old stamp, and is charged for
everything that ran since.

`Ledger` is what the accounting is for: it is told which thread runs and since when, and adds up what
each thread owes. The model has one call of `schedule` as a step; which thread it finds in the run
queue and the clock it reads are choices.
-/

namespace Ilobilix.Scheduler

/-- `nice_t`. -/
def Nice := { prio : ℤ // -20 ≤ prio ∧ prio ≤ 19 }

def defaultPrio : Nice := ⟨0, by omega⟩

def prioToWeight (prio : Nice) : ℕ :=
  [88761, 71755, 56483, 46273, 36291,
    29154, 23254, 18705, 14949, 11916,
    9548, 7620, 6100, 4904, 3906,
    3121, 2501, 1991, 1586, 1277,
    1024, 820, 655, 526, 423,
    335, 272, 215, 172, 137,
    110, 87, 70, 56, 45,
    36, 29, 23, 18, 15].getD (prio.1 + 20).toNat 0

theorem prioToWeight_defaultPrio : prioToWeight defaultPrio = 1024 := rfl

/-- What one call of `schedule` meets. -/
structure ScheduleCall (T : Type*) where
  /-- The clock at the beginning. -/
  time : ℕ
  /-- The first thread in the run queue that is ready. -/
  found : Option T
  /-- The status of the current thread. -/
  status : Status
  /-- The clock at the end. -/
  now : ℕ

structure AccountState (T : Type*) where
  runningThread : Option T
  idleThread : T
  priority : T → Nice
  vruntime : T → ℕ
  scheduleTime : T → ℕ

variable {T : Type*} [DecidableEq T]

/-- The thread `schedule` goes on with. -/
def ScheduleCall.next (c : ScheduleCall T) (idle : T) (current : Option T) : T :=
  match c.found, current with
  | some t, _ => t
  | none, some t => if c.status = .running ∧ t ≠ idle then t else idle
  | none, none => idle

namespace AccountState

/-- The charge of the current thread, in unsigned 64-bit arithmetic. -/
def charge (s : AccountState T) (c : ScheduleCall T) : AccountState T :=
  match s.runningThread with
  | none => s
  | some t =>
      if c.status = .killed ∨ t = s.idleThread then s
      else
        let execTime := (c.time + 2 ^ 64 - s.scheduleTime t) % 2 ^ 64
        let vtime := execTime * prioToWeight defaultPrio % 2 ^ 64 / prioToWeight (s.priority t)
        { s with vruntime := Function.update s.vruntime t ((s.vruntime t + vtime) % 2 ^ 64) }

def schedule (s : AccountState T) (c : ScheduleCall T) : AccountState T :=
  let next := c.next s.idleThread s.runningThread
  let charged := { s.charge c with runningThread := some next }
  if s.runningThread = some s.idleThread then charged
  else { charged with scheduleTime := Function.update s.scheduleTime next c.now }

end AccountState

/-! ## What the threads owe -/

/-- The thread that runs, since when, and what each thread owes for its time slices so far. -/
structure Ledger (T : Type*) where
  running : Option T
  since : ℕ
  owed : T → ℕ
  /-- The last reading of the clock. -/
  clock : ℕ
  /-- The virtual run times at the beginning. -/
  base : T → ℕ

/-- What a time slice costs. -/
def sliceCost (prio : Nice) (length : ℕ) : ℕ := length * 1024 / prioToWeight prio

/-- A call of `schedule` ends a time slice and begins the next one. -/
def Ledger.schedule (l : Ledger T) (idle : T) (priority : T → Nice) (c : ScheduleCall T) :
    Ledger T where
  running := some (c.next idle l.running)
  since := c.now
  owed := fun t =>
    if l.running = some t ∧ c.status ≠ .killed ∧ t ≠ idle then
      l.owed t + sliceCost (priority t) (c.time - l.since)
    else l.owed t
  clock := c.now
  base := l.base

/-- Calls of `schedule` on one processor from the first one on, with a clock that never decreases,
and the ledger beside them. -/
def accountSystem (T : Type*) [DecidableEq T] :
    TransitionSystem (AccountState T × Ledger T) (ScheduleCall T) where
  init s := s.1.runningThread = none ∧ s.2.running = none ∧ (∀ t, s.1.vruntime t < 2 ^ 64) ∧
    s.2.base = s.1.vruntime ∧ (∀ t, s.2.owed t = 0) ∧ s.2.since ≤ s.2.clock
  step s c s' := s.2.clock ≤ c.time ∧ c.time ≤ c.now ∧ c.now < 2 ^ 64 ∧
    s' = (s.1.schedule c, s.2.schedule s.1.idleThread s.1.priority c)

/-- The idle thread is not followed by a thread with an old stamp, and no time slice is so long that
its product with the weight overflows. -/
def AccountState.InOrder (s : AccountState T) (c : ScheduleCall T) : Prop :=
  (s.runningThread = some s.idleThread → c.next s.idleThread s.runningThread ≠ s.idleThread →
    s.scheduleTime (c.next s.idleThread s.runningThread) = c.now) ∧
  ∀ t, s.runningThread = some t → t ≠ s.idleThread → (c.time - s.scheduleTime t) * 1024 < 2 ^ 64

/-- The stamp of the running thread is the beginning of its time slice. -/
structure Booked (s : AccountState T) (l : Ledger T) : Prop where
  running : s.runningThread = l.running
  stamp : ∀ t, s.runningThread = some t → t ≠ s.idleThread → s.scheduleTime t = l.since
  clock : l.since ≤ l.clock
  vruntime : ∀ t, s.vruntime t = (l.base t + l.owed t) % 2 ^ 64

theorem AccountState.charge_fields (s : AccountState T) (c : ScheduleCall T) :
    (s.charge c).idleThread = s.idleThread ∧ (s.charge c).scheduleTime = s.scheduleTime := by
  unfold AccountState.charge
  repeat' split
  all_goals exact ⟨rfl, rfl⟩

/-- Without overflow the charge is the cost of the time slice. -/
theorem Booked.charge {s : AccountState T} {l : Ledger T} {c : ScheduleCall T} (h : Booked s l)
    (hclock : l.clock ≤ c.time) (htime : c.time < 2 ^ 64)
    (hfits : ∀ t, s.runningThread = some t → t ≠ s.idleThread →
      (c.time - s.scheduleTime t) * 1024 < 2 ^ 64) (t : T) :
    (s.charge c).vruntime t =
      ((l.base t) + (l.schedule s.idleThread s.priority c).owed t) % 2 ^ 64 := by
  simp only [AccountState.charge, Ledger.schedule, ← h.running]
  cases hrun : s.runningThread with
  | none => simpa using h.vruntime t
  | some t' =>
      by_cases hskip : c.status = .killed ∨ t' = s.idleThread
      · have howed : ¬(some t' = some t ∧ c.status ≠ .killed ∧ t ≠ s.idleThread) := by
          rintro ⟨ht, hk, hi⟩
          cases ht
          exact hskip.elim hk hi
        simp only [if_pos hskip, if_neg howed]
        exact h.vruntime t
      · simp only [if_neg hskip]
        obtain ⟨hk, hi⟩ := not_or.mp hskip
        by_cases ht : t = t'
        · subst ht
          have hstamp := h.stamp t hrun hi
          have hfit := hfits t hrun hi
          have hle := h.clock
          -- the slice begins before it ends, so the difference does not wrap
          have hexec : (c.time + 2 ^ 64 - s.scheduleTime t) % 2 ^ 64 = c.time - l.since := by
            rw [hstamp]
            omega
          rw [hstamp] at hfit
          rw [Function.update_self, hexec, prioToWeight_defaultPrio, Nat.mod_eq_of_lt hfit,
            h.vruntime t, if_pos ⟨rfl, hk, hi⟩, Nat.mod_add_mod, Nat.add_assoc]
          rfl
        · rw [Function.update_of_ne ht, if_neg (by simp [Ne.symm ht])]
          exact h.vruntime t

theorem Booked.schedule {s : AccountState T} {l : Ledger T} {c : ScheduleCall T} (h : Booked s l)
    (horder : s.InOrder c) (hclock : l.clock ≤ c.time) (hnow : c.time ≤ c.now)
    (hmax : c.now < 2 ^ 64) :
    Booked (s.schedule c) (l.schedule s.idleThread s.priority c) := by
  have hcharge := h.charge hclock (by omega) horder.2
  obtain ⟨hidle, hstamps⟩ := s.charge_fields c
  unfold AccountState.schedule
  split
  · rename_i hrun
    refine ⟨?_, fun t ht hne => ?_, Nat.le_refl _, hcharge⟩
    · simp only [Ledger.schedule, h.running]
    · -- the idle thread is followed by itself, or by a thread that happens to have the right stamp
      obtain rfl := Option.some.inj ht
      simp only [hidle] at hne
      simp only [hstamps]
      exact horder.1 hrun hne
  · refine ⟨?_, fun t ht _ => ?_, Nat.le_refl _, hcharge⟩
    · simp only [Ledger.schedule, h.running]
    · obtain rfl := Option.some.inj ht
      exact Function.update_self _ _ _

/-- Three threads of the default priority, the first of them the idle thread, before the first call
of `schedule`. -/
def AccountState.boot : AccountState (Fin 3) × Ledger (Fin 3) :=
  ({ runningThread := none, idleThread := 0, priority := fun _ => defaultPrio
     vruntime := fun _ => 0, scheduleTime := fun _ => 0 },
   { running := none, since := 0, owed := fun _ => 0, clock := 0, base := fun _ => 0 })

theorem AccountState.boot_init : (accountSystem (Fin 3)).init AccountState.boot :=
  ⟨rfl, rfl, fun _ => by simp [AccountState.boot], rfl, fun _ => rfl, Nat.le_refl _⟩

end Ilobilix.Scheduler
