import Ilobilix.Lib.Semaphore
import Mathlib.Logic.Function.Basic

/-!
# The uACPI workers

Two threads execute the work that uACPI schedules, one from the queue of notifications and one from
that of general-purpose events. Both wait on one semaphore, `added`, which
`uacpi_kernel_schedule_work` signals after it has put an item into one of the queues. A worker that
gets through the wait takes the lock of its own queue, empties the queue and signals `completed` if
it has executed anything.

A signal says that there is work, but not in which queue: the worker it wakes may be the other one,
which finds its own queue empty and waits again. `no_stranded_work` says how much has to be known of
a run to exclude that the item is then left in its queue with both workers asleep.

`wait_for_work_completion` tests whether the queues are empty and then waits for `completed`; one
thread calls it. The items are numbered in the order in which they are scheduled.
-/

namespace Ilobilix.Uacpi

open Lib

/-- `uacpi_work_type`. It names the queue and the worker of that queue. -/
inductive WorkType
  | notify | gpe
deriving DecidableEq

namespace WorkType

def other : WorkType → WorkType
  | notify => gpe
  | gpe => notify

theorem eq_or_other (t u : WorkType) : u = t ∨ u = t.other := by
  cases t <;> cases u <;> simp [other]

theorem eq_other (t : WorkType) {u : WorkType} (hne : u ≠ t) : u = t.other :=
  (t.eq_or_other u).resolve_left hne

end WorkType

/-- Where a worker is in `worker_caller`. -/
inductive Worker
  /-- at `added.wait ()` -/
  | idle
  /-- in `added.wait ()` -/
  | waiting
  /-- behind it, and at `queue.write_lock ()` -/
  | passed
  /-- in the loop, with the lock -/
  | draining (worked : Bool)
  /-- in the handler of an item, with the lock -/
  | running (item : ℕ)
  /-- at `completed.signal (true)` -/
  | worked
  /-- in `completed.signal (true)`, at the wake-up of the caller -/
  | notifying
deriving DecidableEq

/-- Where the caller of `wait_for_work_completion` is. The number is that of the items scheduled
before the call. -/
inductive Caller
  | out
  /-- at the lock of the first queue -/
  | called (before : ℕ)
  /-- at the lock of the second queue, with that of the first -/
  | reading (before : ℕ)
  /-- at `completed.wait ()` -/
  | tested (before : ℕ)
  /-- in `completed.wait ()` -/
  | waiting (before : ℕ)
  | returned (before : ℕ)
deriving DecidableEq

def Caller.isWaiting : Caller → Bool
  | waiting _ => true
  | out | called _ | reading _ | tested _ | returned _ => false

structure AcpiState where
  queue : WorkType → List ℕ
  worker : WorkType → Worker
  added : Semaphore WorkType
  /-- the calls of `schedule_work` that are at `added.signal ()` -/
  calls : ℕ
  /-- the workers that a signal has taken out of the queue of `added` and not woken yet -/
  waking : List WorkType
  completed : Semaphore Unit
  caller : Caller
  scheduled : ℕ
  executed : List ℕ

namespace Worker

/-- The worker has the lock of its queue. -/
def locks : Worker → Bool
  | draining _ | running _ => true
  | idle | waiting | passed | worked | notifying => false

/-- The worker is on its way to its queue or in it. -/
def busy : Worker → Bool
  | passed | draining _ | running _ => true
  | idle | waiting | worked | notifying => false

end Worker

namespace AcpiState

/-- Nobody has the lock of the queue. -/
def writable (s : AcpiState) (t : WorkType) : Bool :=
  !(s.worker t).locks &&
    match t, s.caller with
    | .notify, .reading _ => false
    | .notify, .out | .notify, .called _ | .notify, .tested _ | .notify, .waiting _ => true
    | .notify, .returned _ | .gpe, _ => true

def setWorker (s : AcpiState) (t : WorkType) (w : Worker) : AcpiState :=
  { s with worker := Function.update s.worker t w }

def setQueue (s : AcpiState) (t : WorkType) (items : List ℕ) : AcpiState :=
  { s with queue := Function.update s.queue t items }

/-- `schedule_work` up to `added.signal ()`. -/
def emplace (s : AcpiState) (t : WorkType) : Option AcpiState :=
  if s.writable t then
    some { s.setQueue t (s.queue t ++ [s.scheduled]) with
      scheduled := s.scheduled + 1
      calls := s.calls + 1 }
  else none

/-- `added.signal ()` at the end of `schedule_work`, up to the wake-up. -/
def signal (s : AcpiState) : Option AcpiState :=
  if s.calls = 0 then none
  else (s.added.signal false).map fun (added, thread) =>
    { s with added := added, calls := s.calls - 1, waking := s.waking ++ thread.toList }

/-- The wake-up at the end of `added.signal ()`. -/
def wake (s : AcpiState) (t : WorkType) : Option AcpiState :=
  if t ∈ s.waking then some { s.setWorker t .passed with waking := s.waking.erase t } else none

/-- `added.wait ()`. -/
def wait (s : AcpiState) (t : WorkType) : Option AcpiState :=
  if s.worker t = .idle then
    let (added, sleeps) := s.added.wait t
    some { s.setWorker t (if sleeps then .waiting else .passed) with added := added }
  else none

/-- `queue.write_lock ()`. -/
def lock (s : AcpiState) (t : WorkType) : Option AcpiState :=
  if s.worker t = .passed ∧ s.writable t then some (s.setWorker t (.draining false)) else none

/-- A round of the loop up to the handler. -/
def pop (s : AcpiState) (t : WorkType) : Option AcpiState :=
  match s.worker t, s.queue t with
  | .draining _, item :: items => some ((s.setQueue t items).setWorker t (.running item))
  | _, _ => none

/-- The handler returns. -/
def ran (s : AcpiState) (t : WorkType) : Option AcpiState :=
  match s.worker t with
  | .running item =>
      some { s.setWorker t (.draining true) with executed := s.executed ++ [item] }
  | _ => none

/-- The end of the loop. -/
def unlock (s : AcpiState) (t : WorkType) : Option AcpiState :=
  match s.worker t, s.queue t with
  | .draining worked, [] => some (s.setWorker t (if worked then .worked else .idle))
  | _, _ => none

/-- `completed.signal (true)` up to the wake-up. -/
def complete (s : AcpiState) (t : WorkType) : Option AcpiState :=
  if s.worker t = .worked then
    (s.completed.signal true).map fun (completed, thread) =>
      { s.setWorker t (if thread.isSome then .notifying else .idle) with completed := completed }
  else none

/-- The wake-up at the end of `completed.signal (true)`. -/
def wakeCaller (s : AcpiState) (t : WorkType) : Option AcpiState :=
  match s.worker t, s.caller with
  | .notifying, .waiting before => some { s.setWorker t .idle with caller := .returned before }
  | _, _ => none

/-- The call of `wait_for_work_completion`. -/
def call (s : AcpiState) : Option AcpiState :=
  match s.caller with
  | .out | .returned _ => some { s with caller := .called s.scheduled }
  | _ => none

/-- `notify.read_lock ()`. -/
def read (s : AcpiState) : Option AcpiState :=
  match s.caller with
  | .called before =>
      if (s.worker .notify).locks then none else some { s with caller := .reading before }
  | _ => none

/-- `gpe.read_lock ()` and the rest of `is_empty`. -/
def isEmpty (s : AcpiState) : Option AcpiState :=
  match s.caller with
  | .reading before =>
      let empty := (s.queue .notify).isEmpty && (s.queue .gpe).isEmpty
      if (s.worker .gpe).locks then none
      else some { s with caller := if empty then .returned before else .tested before }
  | _ => none

/-- `completed.wait ()`. -/
def waitCompleted (s : AcpiState) : Option AcpiState :=
  match s.caller with
  | .tested before =>
      let (completed, sleeps) := s.completed.wait ()
      some { s with
        completed := completed
        caller := if sleeps then .waiting before else .returned before }
  | _ => none

end AcpiState

inductive AcpiEvent
  | emplace (t : WorkType) | signal | wake (t : WorkType)
  | wait (t : WorkType) | lock (t : WorkType) | pop (t : WorkType) | ran (t : WorkType)
  | unlock (t : WorkType) | complete (t : WorkType) | wakeCaller (t : WorkType)
  | call | read | isEmpty | waitCompleted

namespace AcpiState

def step (s : AcpiState) : AcpiEvent → Option AcpiState
  | .emplace t => s.emplace t
  | .signal => s.signal
  | .wake t => s.wake t
  | .wait t => s.wait t
  | .lock t => s.lock t
  | .pop t => s.pop t
  | .ran t => s.ran t
  | .unlock t => s.unlock t
  | .complete t => s.complete t
  | .wakeCaller t => s.wakeCaller t
  | .call => s.call
  | .read => s.read
  | .isEmpty => s.isEmpty
  | .waitCompleted => s.waitCompleted

/-- Before the workers run. -/
def start : AcpiState where
  queue _ := []
  worker _ := .idle
  added := ⟨[], 0⟩
  calls := 0
  waking := []
  completed := ⟨[], 0⟩
  caller := .out
  scheduled := 0
  executed := []

end AcpiState

def acpiSystem : TransitionSystem AcpiState AcpiEvent := .ofStep .start AcpiState.step

namespace AcpiState

/-- Both workers are asleep on `added` with an item in a queue, and no call is about to signal. -/
def Stranded (s : AcpiState) : Prop :=
  (∀ t, t ∈ s.added.threads) ∧ (∃ t, s.queue t ≠ []) ∧ s.calls = 0

/-! ## What a step can do -/

/-- The steps by what they do. The two semaphores are in balance, so that no signal fails. -/
inductive Took (s : AcpiState) : AcpiEvent → AcpiState → Prop
  | emplace {t : WorkType} (hw : s.writable t = true) :
      Took s (.emplace t) { s.setQueue t (s.queue t ++ [s.scheduled]) with
        scheduled := s.scheduled + 1
        calls := s.calls + 1 }
  | counted (hc : s.calls ≠ 0) (hs : 0 ≤ s.added.signals) :
      Took s .signal { s with
        added := ⟨s.added.threads, s.added.signals + 1⟩
        calls := s.calls - 1 }
  | woke {t : WorkType} {threads : List WorkType} (hc : s.calls ≠ 0) (hs : s.added.signals < 0)
      (hq : s.added.threads = t :: threads) :
      Took s .signal { s with
        added := ⟨threads, s.added.signals + 1⟩
        calls := s.calls - 1
        waking := s.waking ++ [t] }
  | wake {t : WorkType} (ht : t ∈ s.waking) :
      Took s (.wake t) { s.setWorker t .passed with waking := s.waking.erase t }
  | slept {t : WorkType} (ht : s.worker t = .idle) (hs : s.added.signals ≤ 0) :
      Took s (.wait t) { s.setWorker t .waiting with
        added := ⟨s.added.threads ++ [t], s.added.signals - 1⟩ }
  | passed {t : WorkType} (ht : s.worker t = .idle) (hs : 0 < s.added.signals) :
      Took s (.wait t) { s.setWorker t .passed with
        added := ⟨s.added.threads, s.added.signals - 1⟩ }
  | lock {t : WorkType} (ht : s.worker t = .passed) (hw : s.writable t = true) :
      Took s (.lock t) (s.setWorker t (.draining false))
  | pop {t : WorkType} {worked : Bool} {item : ℕ} {items : List ℕ}
      (ht : s.worker t = .draining worked) (hq : s.queue t = item :: items) :
      Took s (.pop t) ((s.setQueue t items).setWorker t (.running item))
  | ran {t : WorkType} {item : ℕ} (ht : s.worker t = .running item) :
      Took s (.ran t) { s.setWorker t (.draining true) with executed := s.executed ++ [item] }
  | unlock {t : WorkType} {worked : Bool} (ht : s.worker t = .draining worked)
      (hq : s.queue t = []) :
      Took s (.unlock t) (s.setWorker t (if worked then .worked else .idle))
  | dropped {t : WorkType} (ht : s.worker t = .worked) (hq : s.completed.threads = []) :
      Took s (.complete t) (s.setWorker t .idle)
  | notified {t : WorkType} {threads : List Unit} (ht : s.worker t = .worked)
      (hq : s.completed.threads = () :: threads) :
      Took s (.complete t) { s.setWorker t .notifying with
        completed := ⟨threads, s.completed.signals + 1⟩ }
  | wakeCaller {t : WorkType} {before : ℕ} (ht : s.worker t = .notifying)
      (hcaller : s.caller = .waiting before) :
      Took s (.wakeCaller t) { s.setWorker t .idle with caller := .returned before }
  | call (hcaller : ∀ before, s.caller ≠ .waiting before) :
      Took s .call { s with caller := .called s.scheduled }
  | read {before : ℕ} (hcaller : s.caller = .called before)
      (hlock : (s.worker .notify).locks = false) :
      Took s .read { s with caller := .reading before }
  | empty {before : ℕ} (hcaller : s.caller = .reading before)
      (hlock : (s.worker .gpe).locks = false) (hq : ∀ t, s.queue t = []) :
      Took s .isEmpty { s with caller := .returned before }
  | tested {before : ℕ} (hcaller : s.caller = .reading before) :
      Took s .isEmpty { s with caller := .tested before }
  | waitCompleted {before : ℕ} (hcaller : s.caller = .tested before) :
      Took s .waitCompleted { s with
        completed := ⟨s.completed.threads ++ [()], s.completed.signals - 1⟩
        caller := .waiting before }

variable {s s' : AcpiState} {e : AcpiEvent} {t : WorkType}

theorem took_of_step (hadded : s.added.Balanced) (hcompleted : s.completed.Balanced)
    (hle : s.completed.signals ≤ 0) (hs : s.step e = some s') : s.Took e s' := by
  cases e with
  | emplace t =>
      simp only [step, AcpiState.emplace, Option.ite_none_right_eq_some, Option.some.injEq] at hs
      obtain ⟨hw, rfl⟩ := hs
      exact .emplace hw
  | signal =>
      simp only [step, AcpiState.signal, Option.ite_none_left_eq_some, Option.map_eq_some_iff] at hs
      obtain ⟨hc, ⟨added, thread⟩, hsignal, rfl⟩ := hs
      obtain ⟨hd, -⟩ | ⟨-, t, threads, hq, hlt, he⟩ | ⟨-, hge, he⟩ := hadded.signal_cases false
      · cases hd
      · rw [he, Option.some.injEq, Prod.mk.injEq] at hsignal
        obtain ⟨rfl, rfl⟩ := hsignal
        exact .woke hc hlt hq
      · rw [he, Option.some.injEq, Prod.mk.injEq] at hsignal
        obtain ⟨rfl, rfl⟩ := hsignal
        simp only [Option.toList_none, List.append_nil]
        exact .counted hc hge
  | wake t =>
      simp only [step, AcpiState.wake, Option.ite_none_right_eq_some, Option.some.injEq] at hs
      obtain ⟨ht, rfl⟩ := hs
      exact .wake ht
  | wait t =>
      simp only [step, AcpiState.wait, Option.ite_none_right_eq_some, Option.some.injEq] at hs
      obtain ⟨ht, rfl⟩ := hs
      unfold Semaphore.wait
      by_cases hlt : s.added.signals - 1 < 0
      · simp only [hlt, if_true]
        exact .slept ht (by omega)
      · simp only [hlt, if_false, Bool.false_eq_true]
        exact .passed ht (by omega)
  | lock t =>
      simp only [step, AcpiState.lock, Option.ite_none_right_eq_some, Option.some.injEq] at hs
      obtain ⟨⟨ht, hw⟩, rfl⟩ := hs
      exact .lock ht hw
  | pop t =>
      simp only [step, AcpiState.pop] at hs
      split at hs
      · cases hs
        exact .pop ‹_› ‹_›
      · cases hs
  | ran t =>
      simp only [step, AcpiState.ran] at hs
      split at hs
      · cases hs
        exact .ran ‹_›
      · cases hs
  | unlock t =>
      simp only [step, AcpiState.unlock] at hs
      split at hs
      · cases hs
        exact .unlock ‹_› ‹_›
      · cases hs
  | complete t =>
      simp only [step, AcpiState.complete, Option.ite_none_right_eq_some,
        Option.map_eq_some_iff] at hs
      obtain ⟨ht, ⟨completed, thread⟩, hsignal, rfl⟩ := hs
      obtain ⟨hd, he⟩ | ⟨-, ⟨⟩, threads, hq, -, he⟩ | ⟨hd, hge, he⟩ := hcompleted.signal_cases true
      · rw [he, Option.some.injEq, Prod.mk.injEq] at hsignal
        obtain ⟨rfl, rfl⟩ := hsignal
        refine .dropped ht ?_
        simpa [Semaphore.drops] using hd
      · rw [he, Option.some.injEq, Prod.mk.injEq] at hsignal
        obtain ⟨rfl, rfl⟩ := hsignal
        exact .notified ht hq
      · -- a signal is counted only when a thread waits, and then the counter is negative
        have hempty : s.completed.threads = [] := by
          rw [← List.length_eq_zero_iff]
          unfold Semaphore.Balanced at hcompleted
          omega
        simp [Semaphore.drops, hempty] at hd
  | wakeCaller t =>
      simp only [step, AcpiState.wakeCaller] at hs
      split at hs
      · cases hs
        exact .wakeCaller ‹_› ‹_›
      · cases hs
  | call =>
      simp only [step, AcpiState.call] at hs
      split at hs
      · cases hs
        refine .call fun before => ?_
        simp [*]
      · cases hs
        refine .call fun before => ?_
        simp [*]
      · cases hs
  | read =>
      simp only [step, AcpiState.read] at hs
      split at hs
      · split at hs
        · cases hs
        · cases hs
          exact .read ‹_› (Bool.eq_false_iff.mpr ‹_›)
      · cases hs
  | isEmpty =>
      simp only [step, AcpiState.isEmpty] at hs
      split at hs
      · split at hs
        · cases hs
        · cases hs
          split
          · rename_i hlock hq
            rw [Bool.and_eq_true, List.isEmpty_iff, List.isEmpty_iff] at hq
            refine .empty ‹_› (Bool.eq_false_iff.mpr hlock) fun t => ?_
            cases t
            · exact hq.1
            · exact hq.2
          · exact .tested ‹_›
      · cases hs
  | waitCompleted =>
      simp only [step, AcpiState.waitCompleted] at hs
      split at hs
      · cases hs
        have hlt : s.completed.signals - 1 < 0 := by omega
        simp only [Semaphore.wait, hlt, if_true]
        exact .waitCompleted ‹_›
      · cases hs

/-! ## The places of the threads and the semaphores -/

theorem worker_setWorker (u : WorkType) (w : Worker) :
    (s.setWorker t w).worker u = if u = t then w else s.worker u :=
  Function.update_apply _ _ _ _

theorem queue_setQueue (u : WorkType) (items : List ℕ) :
    (s.setQueue t items).queue u = if u = t then items else s.queue u :=
  Function.update_apply _ _ _ _

/-- A worker that is in `added.wait ()` is in the queue of `added` or about to be woken, once. -/
structure Asleep (s : AcpiState) : Prop where
  balanced : s.added.Balanced
  count : ∀ t, s.added.threads.count t + s.waking.count t = if s.worker t = .waiting then 1 else 0

namespace Asleep

theorem awake (h : s.Asleep) (ht : s.worker t ≠ .waiting) :
    s.added.threads.count t = 0 ∧ s.waking.count t = 0 := by
  have hcount := h.count t
  rw [if_neg ht] at hcount
  omega

/-- A worker that waits for a signal is not about to be woken. -/
theorem not_mem_waking (h : s.Asleep) (ht : t ∈ s.added.threads) :
    t ∉ s.waking ∧ s.worker t = .waiting := by
  have hpos := List.count_pos_iff.mpr ht
  have hcount := h.count t
  split at hcount
  · refine ⟨?_, ‹_›⟩
    rw [← List.count_eq_zero]
    omega
  · omega

theorem waiting_of_waking (h : s.Asleep) (ht : t ∈ s.waking) : s.worker t = .waiting := by
  have hpos := List.count_pos_iff.mpr ht
  by_contra hne
  rw [(h.awake hne).2] at hpos
  exact absurd hpos (lt_irrefl 0)

/-- A step of a worker that is not waiting. -/
theorem move (h : s.Asleep) {w₀ w : Worker} (hworker : s'.worker = Function.update s.worker t w)
    (hadded : s'.added = s.added) (hwaking : s'.waking = s.waking) (ht : s.worker t = w₀)
    (hw₀ : w₀ ≠ .waiting) (hw : w ≠ .waiting) : s'.Asleep := by
  refine ⟨hadded ▸ h.balanced, fun u => ?_⟩
  rw [hworker, hadded, hwaking, Function.update_apply]
  by_cases hu : u = t
  · rw [if_pos hu, if_neg hw, hu]
    exact Nat.add_eq_zero_iff.mpr (h.awake (ht ▸ hw₀))
  · rw [if_neg hu]
    exact h.count u

theorem woke (h : s.Asleep) {threads : List WorkType} (hs : s.added.signals < 0)
    (hq : s.added.threads = t :: threads) : Asleep { s with
      added := ⟨threads, s.added.signals + 1⟩
      calls := s.calls - 1
      waking := s.waking ++ [t] } := by
  have hbalanced := h.balanced
  refine ⟨?_, fun u => ?_⟩
  · unfold Semaphore.Balanced at hbalanced ⊢
    rw [hq, List.length_cons] at hbalanced
    simp only
    omega
  · rw [← h.count u, hq]
    simp only [List.count_append, List.count_cons, List.count_nil]
    omega

theorem wake (h : s.Asleep) (ht : t ∈ s.waking) :
    Asleep { s.setWorker t .passed with waking := s.waking.erase t } := by
  have hpos := List.count_pos_iff.mpr ht
  refine ⟨h.balanced, fun u => ?_⟩
  have hcount := h.count u
  change s.added.threads.count u + (s.waking.erase t).count u =
    if (s.setWorker t .passed).worker u = .waiting then 1 else 0
  rw [worker_setWorker, List.count_erase]
  by_cases hu : u = t
  · rw [hu] at hcount ⊢
    have hle : s.added.threads.count t + s.waking.count t ≤ 1 := by
      rw [hcount]
      split <;> omega
    simp only [if_true, beq_self_eq_true, reduceCtorEq, if_false]
    omega
  · rw [if_neg hu, if_neg (by simpa using Ne.symm hu), Nat.sub_zero]
    exact hcount

theorem slept (h : s.Asleep) (ht : s.worker t = .idle) (hs : s.added.signals ≤ 0) :
    Asleep { s.setWorker t .waiting with
      added := ⟨s.added.threads ++ [t], s.added.signals - 1⟩ } := by
  have hbalanced := h.balanced
  have hawake := h.awake (t := t) (ht ▸ nofun)
  refine ⟨?_, fun u => ?_⟩
  · unfold Semaphore.Balanced at hbalanced ⊢
    simp only [List.length_append, List.length_singleton]
    omega
  · change (s.added.threads ++ [t]).count u + s.waking.count u =
      if (s.setWorker t .waiting).worker u = .waiting then 1 else 0
    rw [worker_setWorker, List.count_append, List.count_singleton]
    by_cases hu : u = t
    · rw [hu, hawake.1, hawake.2]
      simp
    · rw [if_neg hu, if_neg (by simpa using Ne.symm hu)]
      exact h.count u

/-- The counter of `added` moves while nobody is in its queue. -/
theorem setSignals (h : s.Asleep) (signals : ℤ) (hs : 0 ≤ s.added.signals) (hs' : 0 ≤ signals) :
    Asleep { s with added := ⟨s.added.threads, signals⟩ } := by
  have hbalanced := h.balanced
  refine ⟨?_, h.count⟩
  unfold Semaphore.Balanced at hbalanced ⊢
  simp only
  omega

theorem step (h : s.Asleep) (hs : s.Took e s') : s'.Asleep := by
  cases hs with
  | counted hc hs =>
      have hcounted := h.setSignals (s.added.signals + 1) hs (by omega)
      exact ⟨hcounted.balanced, hcounted.count⟩
  | woke hc hs hq => exact h.woke hs hq
  | wake ht => exact h.wake ht
  | slept ht hs => exact h.slept ht hs
  | @passed t ht hs =>
      have hpassed : (s.setWorker t .passed).Asleep := h.move rfl rfl rfl ht nofun nofun
      exact hpassed.setSignals (s.added.signals - 1) hs.le (by omega)
  | lock ht | pop ht | ran ht | dropped ht | notified ht | wakeCaller ht =>
      exact h.move rfl rfl rfl ht nofun nofun
  | @unlock t worked ht =>
      refine h.move (w := if worked then .worked else .idle) rfl rfl rfl ht nofun ?_
      cases worked <;> nofun
  | emplace | call | read | empty | tested | waitCompleted => exact ⟨h.balanced, h.count⟩

end Asleep

/-- The workers that have taken the caller out of the queue of `completed`. -/
def notifiers (s : AcpiState) : ℕ :=
  (if s.worker .notify = .notifying then 1 else 0) + if s.worker .gpe = .notifying then 1 else 0

theorem notifiers_move {w₀ w : Worker} (hworker : s'.worker = Function.update s.worker t w)
    (ht : s.worker t = w₀) : s'.notifiers + (if w₀ = .notifying then 1 else 0) =
      s.notifiers + if w = .notifying then 1 else 0 := by
  rw [← ht]
  unfold notifiers
  rw [hworker]
  cases t <;> simp [Function.update] <;> omega

/-- The caller that is in `completed.wait ()` is in the queue of `completed` or about to be woken. -/
structure Called (s : AcpiState) : Prop where
  signals : s.completed.signals = -(s.completed.threads.length : ℤ)
  count : s.completed.threads.length + s.notifiers = if s.caller.isWaiting then 1 else 0

namespace Called

theorem balanced (h : s.Called) : s.completed.Balanced := by
  have := h.signals
  unfold Semaphore.Balanced
  omega

theorem signals_nonpos (h : s.Called) : s.completed.signals ≤ 0 := by
  rw [h.signals]
  omega

/-- A step of a worker that does not wake the caller. -/
theorem move (h : s.Called) {w₀ w : Worker} (hworker : s'.worker = Function.update s.worker t w)
    (hcompleted : s'.completed = s.completed) (hcaller : s'.caller = s.caller)
    (ht : s.worker t = w₀) (hw₀ : w₀ ≠ .notifying) (hw : w ≠ .notifying) : s'.Called := by
  have hsame := notifiers_move hworker ht
  rw [if_neg hw₀, if_neg hw, Nat.add_zero, Nat.add_zero] at hsame
  refine ⟨hcompleted ▸ h.signals, ?_⟩
  rw [hcompleted, hcaller, hsame]
  exact h.count

/-- A step of the caller outside `completed.wait ()`. -/
theorem setCaller (h : s.Called) {c : Caller} (hcaller : s.caller.isWaiting = false)
    (hc : c.isWaiting = false) : Called { s with caller := c } := by
  have hcount := h.count
  rw [hcaller] at hcount
  refine ⟨h.signals, ?_⟩
  rw [hc]
  exact hcount

theorem notified (h : s.Called) {threads : List Unit} (ht : s.worker t = .worked)
    (hq : s.completed.threads = () :: threads) : Called { s.setWorker t .notifying with
      completed := ⟨threads, s.completed.signals + 1⟩ } := by
  have hmoved := notifiers_move (show (s.setWorker t .notifying).worker = _ from rfl) ht
  have hsignals := h.signals
  have hcount := h.count
  rw [if_neg nofun, if_pos rfl] at hmoved
  rw [hq, List.length_cons] at hsignals hcount
  refine ⟨?_, ?_⟩
  · change s.completed.signals + 1 = -(threads.length : ℤ)
    omega
  · change threads.length + (s.setWorker t .notifying).notifiers =
      if s.caller.isWaiting then 1 else 0
    rw [← hcount]
    omega

theorem wakeCaller (h : s.Called) {before : ℕ} (ht : s.worker t = .notifying)
    (hcaller : s.caller = .waiting before) :
    Called { s.setWorker t .idle with caller := .returned before } := by
  have hmoved := notifiers_move (show (s.setWorker t .idle).worker = _ from rfl) ht
  have hcount := h.count
  rw [if_pos rfl, if_neg nofun] at hmoved
  rw [hcaller] at hcount
  refine ⟨h.signals, ?_⟩
  change s.completed.threads.length + (s.setWorker t .idle).notifiers = 0
  simp only [Caller.isWaiting, if_true] at hcount
  omega

theorem waitCompleted (h : s.Called) {before : ℕ} (hcaller : s.caller = .tested before) :
    Called { s with
      completed := ⟨s.completed.threads ++ [()], s.completed.signals - 1⟩
      caller := .waiting before } := by
  have hsignals := h.signals
  have hcount := h.count
  rw [hcaller] at hcount
  refine ⟨?_, ?_⟩
  · simp only [List.length_append, List.length_singleton]
    omega
  · change (s.completed.threads ++ [()]).length + s.notifiers = 1
    simp only [Caller.isWaiting, Bool.false_eq_true, if_false] at hcount
    rw [List.length_append, List.length_singleton]
    omega

theorem step (h : s.Called) (hasleep : s.Asleep) (hs : s.Took e s') : s'.Called := by
  cases hs with
  | emplace | counted | woke => exact ⟨h.signals, h.count⟩
  | wake ht => exact h.move rfl rfl rfl (hasleep.waiting_of_waking ht) nofun nofun
  | slept ht | passed ht | lock ht | pop ht | ran ht | dropped ht =>
      exact h.move rfl rfl rfl ht nofun nofun
  | @unlock t worked ht =>
      refine h.move (w := if worked then .worked else .idle) rfl rfl rfl ht nofun ?_
      cases worked <;> nofun
  | notified ht hq => exact h.notified ht hq
  | wakeCaller ht hcaller => exact h.wakeCaller ht hcaller
  | call hcaller =>
      refine h.setCaller ?_ rfl
      cases hc : s.caller with
      | waiting before => exact absurd hc (hcaller before)
      | out | called | reading | tested | returned => rfl
  | read hcaller | empty hcaller | tested hcaller => exact h.setCaller (by rw [hcaller]; rfl) rfl
  | waitCompleted hcaller => exact h.waitCompleted hcaller

end Called

/-- An item is left in a queue whose worker is not on its way to it. -/
def Left (s : AcpiState) (t : WorkType) : Prop :=
  s.queue t ≠ [] ∧ t ∉ s.waking ∧ (s.worker t).busy = false

/-- The signals that have been given and not taken, and those about to be given. -/
def tokens (s : AcpiState) : ℕ := s.added.signals.toNat + s.calls

/-- There is a signal for each queue in which an item is left. -/
structure Fed (s : AcpiState) : Prop where
  one : ∀ t, s.Left t → 1 ≤ s.tokens
  two : (∀ t, s.Left t) → 2 ≤ s.tokens

/-- The worker of an empty queue does not take the last signal while an item is left in the other
queue. -/
def Fair (s : AcpiState) : AcpiEvent → Prop
  | .wait t => 0 < s.added.signals → s.queue t = [] → s.Left t.other → 1 < s.tokens
  | .signal => ∀ t, s.added.threads.head? = some t → s.queue t = [] → s.Left t.other → 1 < s.tokens
  | .emplace _ | .wake _ | .lock _ | .pop _ | .ran _ | .unlock _ | .complete _ | .wakeCaller _ => True
  | .call | .read | .isEmpty | .waitCompleted => True

namespace Fed

theorem mono (h : s.Fed) (hleft : ∀ t, s'.Left t → s.Left t) (htokens : s.tokens ≤ s'.tokens) :
    s'.Fed :=
  ⟨fun t ht => (h.one t (hleft t ht)).trans htokens,
    fun hall => (h.two fun t => hleft t (hall t)).trans htokens⟩

/-- A worker takes a signal. -/
theorem take (h : s.Fed) (htokens : s.tokens = s'.tokens + 1) (hleft : ∀ u, s'.Left u → s.Left u)
    (htaken : ¬s'.Left t) (hown : s.queue t ≠ [] → s.Left t)
    (hfair : s.queue t = [] → s.Left t.other → 1 < s.tokens) : s'.Fed := by
  refine ⟨fun u hu => ?_, fun hall => absurd (hall t) htaken⟩
  have hut : u = t.other := t.eq_other fun heq => htaken (heq ▸ hu)
  have hother : s.Left t.other := hut ▸ hleft u hu
  by_cases hq : s.queue t = []
  · have := hfair hq hother
    omega
  · have := h.two fun v => (t.eq_or_other v).elim (fun hv => hv ▸ hown hq) fun hv => hv ▸ hother
    omega

/-- A step of one worker, in its own queue. -/
theorem move (h : s.Fed) {w : Worker} (hworker : s'.worker = Function.update s.worker t w)
    (hqueue : ∀ u, u ≠ t → s'.queue u = s.queue u) (hwaking : s'.waking = s.waking)
    (htokens : s'.tokens = s.tokens)
    (hown : w.busy = true ∨ s'.queue t = [] ∨ s'.queue t = s.queue t ∧ (s.worker t).busy = false) :
    s'.Fed := by
  refine h.mono (fun u hu => ?_) htokens.ge
  by_cases hut : u = t
  · subst hut
    obtain ⟨hq, hmem, hbusy⟩ := hu
    rw [hworker, Function.update_self] at hbusy
    obtain hw | hempty | ⟨hsame, hidle⟩ := hown
    · rw [hw] at hbusy
      cases hbusy
    · exact absurd hempty hq
    · exact ⟨hsame ▸ hq, hwaking ▸ hmem, hidle⟩
  · obtain ⟨hq, hmem, hbusy⟩ := hu
    rw [hworker, Function.update_of_ne hut] at hbusy
    exact ⟨hqueue u hut ▸ hq, hwaking ▸ hmem, hbusy⟩

theorem emplace (h : s.Fed) : Fed { s.setQueue t (s.queue t ++ [s.scheduled]) with
    scheduled := s.scheduled + 1
    calls := s.calls + 1 } := by
  have hleft : ∀ u, u ≠ t → Left { s.setQueue t (s.queue t ++ [s.scheduled]) with
      scheduled := s.scheduled + 1
      calls := s.calls + 1 } u → s.Left u := by
    intro u hut ⟨hq, hmem, hbusy⟩
    change (s.setQueue t _).queue u ≠ [] at hq
    rw [queue_setQueue, if_neg hut] at hq
    exact ⟨hq, hmem, hbusy⟩
  refine ⟨fun u hu => Nat.le_add_left _ _, fun hall => ?_⟩
  have hother : t.other ≠ t := by cases t <;> nofun
  have := h.one t.other (hleft _ hother (hall _))
  exact Nat.succ_le_succ this

theorem woke (h : s.Fed) (hasleep : s.Asleep) {threads : List WorkType} (hc : s.calls ≠ 0)
    (hs : s.added.signals < 0) (hq : s.added.threads = t :: threads) (hfair : s.Fair .signal) :
    Fed { s with
      added := ⟨threads, s.added.signals + 1⟩
      calls := s.calls - 1
      waking := s.waking ++ [t] } := by
  have hin : t ∈ s.added.threads := hq ▸ List.mem_cons_self
  obtain ⟨hmem, hwaiting⟩ := hasleep.not_mem_waking hin
  refine h.take (t := t) ?_ (fun u hu => ?_) (fun hu => ?_) (fun hne => ?_) ?_
  · simp only [tokens]
    omega
  · obtain ⟨hne, hu, hbusy⟩ := hu
    exact ⟨hne, fun hu' => hu (List.mem_append_left _ hu'), hbusy⟩
  · exact hu.2.1 (List.mem_append_right _ List.mem_cons_self)
  · exact ⟨hne, hmem, by rw [hwaiting]; rfl⟩
  · exact hfair t (by rw [hq, List.head?_cons])

theorem passed (h : s.Fed) (hasleep : s.Asleep) (ht : s.worker t = .idle)
    (hs : 0 < s.added.signals) (hfair : s.Fair (.wait t)) :
    Fed { s.setWorker t .passed with added := ⟨s.added.threads, s.added.signals - 1⟩ } := by
  have hbusy : (s.worker t).busy = false := by rw [ht]; rfl
  refine h.take (t := t) ?_ (fun u hu => ?_) (fun hu => ?_) (fun hne => ?_) (hfair hs)
  · change s.added.signals.toNat + s.calls = (s.added.signals - 1).toNat + s.calls + 1
    omega
  · obtain ⟨hne, hmem, hu⟩ := hu
    refine ⟨hne, hmem, ?_⟩
    change ((s.setWorker t .passed).worker u).busy = false at hu
    rw [worker_setWorker] at hu
    split at hu
    · cases hu
    · exact hu
  · have hpassed := hu.2.2
    change ((s.setWorker t .passed).worker t).busy = false at hpassed
    rw [worker_setWorker, if_pos rfl] at hpassed
    cases hpassed
  · exact ⟨hne, List.count_eq_zero.mp (hasleep.awake (ht ▸ nofun)).2, hbusy⟩

theorem step (h : s.Fed) (hasleep : s.Asleep) (hfair : s.Fair e) (hs : s.Took e s') : s'.Fed := by
  cases hs with
  | emplace => exact h.emplace
  | counted hc hs =>
      refine h.mono (fun _ hu => hu) ?_
      simp only [tokens]
      omega
  | woke hc hs hq => exact h.woke hasleep hc hs hq hfair
  | @wake t ht =>
      refine h.mono (fun u ⟨hq, hmem, hbusy⟩ => ?_) le_rfl
      change ((s.setWorker t .passed).worker u).busy = false at hbusy
      rw [worker_setWorker] at hbusy
      split at hbusy
      · cases hbusy
      · rename_i hut
        exact ⟨hq, fun hu => hmem ((List.mem_erase_of_ne hut).mpr hu), hbusy⟩
  | slept ht hs =>
      refine h.move rfl (fun _ _ => rfl) rfl ?_ (.inr (.inr ⟨rfl, by rw [ht]; rfl⟩))
      change (s.added.signals - 1).toNat + s.calls = s.added.signals.toNat + s.calls
      omega
  | passed ht hs => exact h.passed hasleep ht hs hfair
  | lock ht | ran ht => exact h.move rfl (fun _ _ => rfl) rfl rfl (.inl rfl)
  | pop ht hq => exact h.move rfl (fun u hu => Function.update_of_ne hu _ _) rfl rfl (.inl rfl)
  | @unlock t worked ht hq =>
      exact h.move (w := if worked then .worked else .idle) rfl (fun _ _ => rfl) rfl rfl
        (.inr (.inl hq))
  | dropped ht | notified ht | wakeCaller ht =>
      exact h.move rfl (fun _ _ => rfl) rfl rfl (.inr (.inr ⟨rfl, by rw [ht]; rfl⟩))
  | call | read | empty | tested | waitCompleted => exact h.mono (fun _ hu => hu) le_rfl

end Fed

theorem fed_start : start.Fed :=
  ⟨fun _ ht => absurd rfl ht.1, fun hall => absurd rfl (hall .notify).1⟩

theorem asleep_start : start.Asleep :=
  ⟨rfl, fun _ => rfl⟩

theorem called_start : start.Called :=
  ⟨rfl, rfl⟩

theorem Fed.not_stranded (h : s.Fed) (hasleep : s.Asleep) : ¬s.Stranded := by
  rintro ⟨hall, ⟨t, hq⟩, hcalls⟩
  obtain ⟨hmem, hwaiting⟩ := hasleep.not_mem_waking (hall t)
  have htokens := h.one t ⟨hq, hmem, by rw [hwaiting]; rfl⟩
  have hbalanced := hasleep.balanced
  have hpos := List.length_pos_of_mem (hall t)
  unfold Semaphore.Balanced at hbalanced
  unfold tokens at htokens
  omega

end AcpiState

open AcpiState

theorem reachable_asleep {s : AcpiState} (h : acpiSystem.Reachable s) : s.Asleep ∧ s.Called := by
  refine h.invariant (I := fun s => s.Asleep ∧ s.Called) ?_ fun s e s' _ ⟨hasleep, hcalled⟩ hs => ?_
  · rintro s rfl
    exact ⟨asleep_start, called_start⟩
  · have htook := took_of_step hasleep.balanced hcalled.balanced hcalled.signals_nonpos hs
    exact ⟨hasleep.step htook, hcalled.step hasleep htook⟩

/-- A step from a reachable state. -/
theorem took_of_reachable {s s' : AcpiState} {e : AcpiEvent} (h : acpiSystem.Reachable s)
    (hs : acpiSystem.step s e s') : s.Took e s' := by
  obtain ⟨hasleep, hcalled⟩ := reachable_asleep h
  exact took_of_step hasleep.balanced hcalled.balanced hcalled.signals_nonpos hs

/-- If the worker of an empty queue never takes the last signal from an item in the other queue, no
item is left in a queue with both workers asleep. -/
theorem no_stranded_work {s : AcpiState} (h : (acpiSystem.restrict Fair).Reachable s) :
    ¬s.Stranded := by
  have hfed : s.Fed := by
    refine h.invariant ?_ fun s e s' hs hfed ⟨hfair, hstep⟩ => ?_
    · rintro s rfl
      exact fed_start
    · exact hfed.step (reachable_asleep hs.of_restrict).1 hfair
        (took_of_reachable hs.of_restrict hstep)
  exact hfed.not_stranded (reachable_asleep h.of_restrict).1

/-- An event is scheduled and executed. -/
theorem no_stranded_work_executed : ∃ s, (acpiSystem.restrict Fair).Reachable s ∧
    s.executed = [0] ∧ ¬s.Stranded := by
  have h₀ : (acpiSystem.restrict Fair).Reachable start := .init rfl
  have h₁ := h₀.step (l := AcpiEvent.emplace .gpe) ⟨trivial, rfl⟩
  have h₂ := h₁.step (l := AcpiEvent.signal) ⟨nofun, rfl⟩
  have h₃ := h₂.step (l := AcpiEvent.wait .gpe) ⟨fun _ => nofun, rfl⟩
  have h₄ := h₃.step (l := AcpiEvent.lock .gpe) ⟨trivial, rfl⟩
  have h₅ := h₄.step (l := AcpiEvent.pop .gpe) ⟨trivial, rfl⟩
  have h₆ := h₅.step (l := AcpiEvent.ran .gpe) ⟨trivial, rfl⟩
  exact ⟨_, h₆, rfl, no_stranded_work h₆⟩

/-- The worker of an empty queue takes the signal and waits again. -/
theorem work_stranded : ¬∀ s, acpiSystem.Reachable s → ¬s.Stranded := by
  have h : acpiSystem.Reachable _ := .ofStep
    [.wait .notify, .wait .gpe, .emplace .gpe, .signal, .wake .notify, .lock .notify,
      .unlock .notify, .wait .notify] rfl
  intro hall
  refine hall _ h ⟨fun t => ?_, ⟨.gpe, nofun⟩, rfl⟩
  cases t
  · exact List.mem_cons_of_mem _ List.mem_cons_self
  · exact List.mem_cons_self

end Ilobilix.Uacpi
