import Ilobilix.Scheduler.Exclusive

/-!
# No thread is lost

An interrupt that finds the reaper with `sleeping` written and not yet in the sleep queue makes
`schedule` switch away from it and leave it in no queue: nothing will ever run it again. In every
other run each thread is running or in exactly one queue after `schedule`, and `schedule` finds no
thread in the run queue that must not be there.
-/

namespace Ilobilix.Scheduler

namespace QueueState

variable {T W : Type*} {s s' : QueueState T W}

/-- Nothing is lost so far, and nothing will be when `schedule` reads the status again. -/
structure Safe (s : QueueState T W) : Prop where
  lost : s.lost = []
  queued : s.schedule ≠ .away → s.schedule.beforeUnlock = true ∨ s.schedule.rereads = true →
    s.status s.runningThread = .sleeping → (s.pc s.runningThread).isQueued = true

/-- A step after which `schedule` is away, or has put the current thread away. -/
theorem Safe.of_decided (h : s.Safe) (hlost : s'.lost = s.lost)
    (hsched : s'.schedule ≠ .away →
      ¬(s'.schedule.beforeUnlock = true ∨ s'.schedule.rereads = true)) : s'.Safe :=
  ⟨hlost.trans h.lost, fun hne hu => absurd hu (hsched hne)⟩

/-- A step that leaves the current thread where it is and puts nobody to sleep. -/
theorem Safe.of_status (h : s.Safe) (hlost : s'.lost = s.lost)
    (hrun : s'.runningThread = s.runningThread) (hpc : s'.pc = s.pc)
    (hsched : s'.schedule ≠ .away → s'.schedule.beforeUnlock = true ∨ s'.schedule.rereads = true →
      s.schedule ≠ .away ∧ (s.schedule.beforeUnlock = true ∨ s.schedule.rereads = true))
    (hstatus : ∀ t, s'.status t = .sleeping → s.status t = .sleeping) : s'.Safe := by
  refine ⟨hlost.trans h.lost, fun hne hu hs => ?_⟩
  rw [hpc, hrun]
  exact h.queued (hsched hne hu).1 (hsched hne hu).2 (hrun ▸ hstatus _ hs)

variable [DecidableEq T]

theorem wakeReaper_lost (s : QueueState T W) : s.wakeReaper.lost = s.lost := by
  unfold wakeReaper
  split <;> rfl

theorem Safe.runSchedule (h : s.Safe) (hs : s.runSchedule = some s') : s'.Safe := by
  cases hsched : s.schedule with
  | away => simp [QueueState.runSchedule, hsched] at hs
  | scan =>
      simp only [QueueState.runSchedule, hsched] at hs
      split at hs
      · cases hs
        exact h.of_status rfl rfl rfl (by simp [hsched, HandoverPc.beforeUnlock]) fun _ => id
      · cases hs
  | check next =>
      simp only [QueueState.runSchedule, hsched] at hs
      repeat' split at hs
      all_goals
        cases hs
        exact h.of_status rfl rfl rfl (by simp [hsched, HandoverPc.beforeUnlock]) fun _ => id
  | unlock next =>
      simp only [QueueState.runSchedule, hsched, Option.some.injEq] at hs
      subst hs
      exact h.of_status rfl rfl rfl (by simp [hsched, HandoverPc.beforeUnlock]) fun _ => id
  | reread next =>
      simp only [QueueState.runSchedule, hsched] at hs
      split at hs
      · cases hs
        exact h.of_status rfl rfl rfl (by simp [hsched, HandoverPc.rereads]) fun _ => id
      · rename_i hsleeping
        have hqueued := h.queued (by simp [hsched]) (.inr (by simp [hsched, HandoverPc.rereads]))
          (not_not.mp hsleeping)
        simp only [hqueued, if_true] at hs
        cases hs
        exact h.of_status rfl rfl rfl (by simp [hsched, HandoverPc.rereads]) fun _ => id
  | enqueue next =>
      simp only [QueueState.runSchedule, hsched] at hs
      split at hs
      all_goals cases hs
      all_goals exact h.of_decided rfl (by simp [HandoverPc.beforeUnlock, HandoverPc.rereads])
  | insert next =>
      simp only [QueueState.runSchedule, hsched, Option.some.injEq] at hs
      subst hs
      exact h.of_decided rfl (by simp [HandoverPc.beforeUnlock, HandoverPc.rereads])
  | stay =>
      simp only [QueueState.runSchedule, hsched, Option.some.injEq] at hs
      subst hs
      exact h.of_decided (wakeReaper_lost s) (by simp)
  | reap next =>
      simp only [QueueState.runSchedule, hsched, Option.some.injEq] at hs
      subst hs
      exact h.of_decided (wakeReaper_lost s)
        (by simp [HandoverPc.beforeUnlock, HandoverPc.rereads])
  | switch next =>
      simp only [QueueState.runSchedule, hsched] at hs
      split at hs
      all_goals
        cases hs
        exact h.of_decided rfl (by simp)

/-- Every thread that was ever enqueued runs or is in exactly one of the queues. -/
def Kept (s : QueueState T W) : Prop :=
  ∀ t, s.status t ≠ .notReady → t ≠ s.idleThread → t = s.runningThread ∨
    s.queue.count t + s.sleepQueue.count t + s.deadThreads.count t = 1

/-- With nothing lost, a thread the processor does not carry is in one of the queues. -/
theorem Inv.kept (h : s.Inv) (hlost : s.lost = []) (haway : s.schedule = .away)
    (hsl : s.sleeper = .away) : s.Kept := by
  intro t hnew hidle
  by_cases hrun : t = s.runningThread
  · exact .inl hrun
  · right
    have hcount := h.places t
    have hheld : (held s.schedule (s.pc s.runningThread) s.runningThread s.idleThread).count t = 0 := by
      unfold held
      split
      · rfl
      · exact List.count_eq_zero.mpr (by simpa using hrun)
    rw [count_places, hheld, hlost, haway, hsl, if_neg hnew] at hcount
    simpa [HandoverPc.next, SleeperPc.carried, Ne.symm hidle] using hcount

variable [DecidableEq W]

/-- The timer does not interrupt a thread that has written `sleeping` and is not in the sleep queue
yet. Only the reaper goes to sleep with interrupts on. -/
def timerInOrder (s : QueueState T W) : QueueStep T W → Bool
  | .interrupt => s.status s.runningThread ≠ .sleeping || (s.pc s.runningThread).isQueued
  | _ => true

/-- `schedule` finds a thread in the run queue that must not be there. -/
def Panics (s : QueueState T W) : Prop :=
  s.schedule = .scan ∧ ∃ t ∈ s.queue, s.status t = .sleeping ∨ s.status t = .running

/-- Outside `schedule` only the running thread writes `sleeping`. -/
theorem Safe.step (h : s.Safe) (hinv : s.Inv) {e : QueueStep T W} (htimer : s.timerInOrder e = true)
    (hs : s.step e = some s') : s'.Safe := by
  have hstatus : ∀ t t', (s.setStatus t .ready).status t' = .sleeping → s.status t' = .sleeping := by
    intro t t' ht'
    by_cases ht : t' = t
    · simp [QueueState.setStatus, ht] at ht'
    · simpa [QueueState.setStatus, ht] using ht'
  cases e with
  | spawn t =>
      simp only [QueueState.step, QueueState.spawn] at hs
      split at hs
      · cases hs
        exact h.of_status rfl rfl rfl (fun hne hu => ⟨hne, hu⟩) (hstatus t)
      · cases hs
  | prepareSleep timed =>
      simp only [QueueState.step] at hs
      split at hs
      · rename_i hidles
        cases hs
        exact h.of_decided rfl fun hne => absurd hidles.1 hne
      · cases hs
  | reaper =>
      simp only [QueueState.step] at hs
      split at hs
      · rename_i hidles
        cases hs
        exact h.of_decided rfl fun hne => absurd hidles.1.1 hne
      · cases hs
  | run =>
      simp only [QueueState.step] at hs
      split at hs
      · rename_i haway
        simp only [QueueState.run] at hs
        repeat' split at hs
        all_goals cases hs
        all_goals exact h.of_decided rfl fun hne => absurd haway hne
      · cases hs
  | interrupt =>
      simp only [QueueState.step] at hs
      split at hs
      · cases hs
        refine ⟨h.lost, fun _ _ hsleeping => ?_⟩
        change s.status s.runningThread = .sleeping at hsleeping
        simpa [timerInOrder, hsleeping] using htimer
      · cases hs
  | scan t =>
      simp only [QueueState.step] at hs
      split at hs
      · rename_i hscan
        simp only [QueueState.scan] at hs
        repeat' split at hs
        all_goals cases hs
        all_goals exact h.of_status rfl rfl rfl (by simp [hscan, HandoverPc.beforeUnlock]) fun _ => id
      · cases hs
  | schedule => exact h.runSchedule hs
  | enterSleeper =>
      simp only [QueueState.step] at hs
      split at hs
      · rename_i hidles
        cases hs
        exact h.of_decided rfl fun hne => absurd hidles.1.1 hne
      · cases hs
  | examine t expired =>
      simp only [QueueState.step, QueueState.examine] at hs
      split at hs
      case isFalse => cases hs
      rename_i hloop
      have haway := (hinv.control.sleeper (by simp [hloop.1])).1
      repeat' split at hs
      all_goals cases hs
      all_goals exact h.of_decided rfl fun hne => absurd haway hne
  | sleeper =>
      simp only [QueueState.step, QueueState.runSleeper] at hs
      have haway : s.sleeper ≠ .away → s.schedule = .away := fun hne => (hinv.control.sleeper hne).1
      cases hsl : s.sleeper <;> simp only [hsl] at hs <;> cases hs <;>
        exact h.of_decided rfl fun hne => absurd (haway (by simp [hsl])) hne
  | leaveSleeper =>
      simp only [QueueState.step] at hs
      split at hs
      · rename_i hsl
        cases hs
        exact h.of_decided rfl fun hne => absurd (hinv.control.sleeper (by simp [hsl])).1 hne
      · cases hs
  | wakeUp w t =>
      simp only [QueueState.step] at hs
      split at hs
      · cases hs
        exact h.of_status rfl rfl rfl (fun hne hu => ⟨hne, hu⟩) fun _ => id
      · cases hs
  | waker w =>
      simp only [QueueState.step, QueueState.runWaker] at hs
      cases hw : s.wakers w <;> simp only [hw] at hs
      case out => cases hs
      case lock t =>
        split at hs
        · cases hs
          exact h.of_status rfl rfl rfl (fun hne hu => ⟨hne, hu⟩) fun _ => id
        · cases hs
      case check t =>
        split at hs
        all_goals
          cases hs
          exact h.of_status rfl rfl rfl (fun hne hu => ⟨hne, hu⟩) fun _ => id
      case write t =>
        cases hs
        exact h.of_status rfl rfl rfl (fun hne hu => ⟨hne, hu⟩) (hstatus t)
      case unlock t =>
        cases hs
        exact h.of_status rfl rfl rfl (fun hne hu => ⟨hne, hu⟩) fun _ => id

end QueueState

/-- In every run in which `wake_up` and the timer keep out of their windows, `schedule` never panics
over the run queue, and after `schedule` every thread that was enqueued runs or is in exactly one of
the run queue, the sleep queue and the dead list. -/
theorem schedule_keeps_threads {T W : Type*} [DecidableEq T] [DecidableEq W] {s : QueueState T W}
    (h : ((queueSystem T W).restrict fun s e =>
      s.wakesInOrder e = true ∧ s.timerInOrder e = true).Reachable s) :
    ¬s.Panics ∧ (s.schedule = .away → s.sleeper = .away → s.Kept) := by
  have hinv := QueueState.Inv.of_reachable (h.mono_restrict fun _ _ horder => horder.1)
  have hsafe : s.Safe := by
    apply h.invariant
    · intro s hs
      obtain ⟨-, -, -, hlost, -, -, -, -, -, haway, -⟩ : (queueSystem T W).init s := hs
      exact ⟨hlost, fun hne => absurd haway hne⟩
    · intro s e s' hr hsafe hs
      have hinv := QueueState.Inv.of_reachable (hr.mono_restrict fun _ _ horder => horder.1)
      exact hsafe.step hinv hs.1.2 hs.2
  refine ⟨?_, hinv.kept hsafe.lost⟩
  rintro ⟨-, t, ht, hstatus⟩
  rw [hinv.ready t (.inl ht)] at hstatus
  simp at hstatus

/-- A thread sleeps, is woken and is moved to the run queue by the sleeper. -/
theorem schedule_keeps_threads_woken : ∃ s : QueueState (Fin 4) Unit,
    ((queueSystem (Fin 4) Unit).restrict fun s e =>
      s.wakesInOrder e = true ∧ s.timerInOrder e = true).Reachable s ∧
      s.runningThread = 2 ∧ s.queue = [3] ∧ s.Kept := by
  have h : ((queueSystem (Fin 4) Unit).restrict fun s e =>
      s.wakesInOrder e = true ∧ s.timerInOrder e = true).Reachable _ :=
    .of_foldlM
      (f := fun s e => if s.wakesInOrder e = true ∧ s.timerInOrder e = true then s.step e else none)
      (fun _ _ _ h => by split at h; exacts [⟨‹_›, h⟩, by cases h])
      ((QueueState.goToSleep 3).append [.schedule, .schedule, .schedule, .wakeUp () 3, .waker (),
        .waker (), .waker (), .waker (), .spawn 2, .interrupt, .scan 2, .schedule, .schedule,
        .schedule, .enterSleeper, .examine 3 false, .sleeper, .sleeper, .leaveSleeper])
      (.init QueueState.boot_init) rfl
  exact ⟨_, h, rfl, rfl, (schedule_keeps_threads h).2 rfl rfl⟩

/-- The timer interrupts the reaper after it has written `sleeping` and before it is in the sleep
queue: after `schedule` it neither runs nor is in any queue. -/
theorem schedule_loses_reaper : ∃ s : QueueState (Fin 4) Unit,
    (queueSystem (Fin 4) Unit).Reachable s ∧ s.schedule = .away ∧ s.sleeper = .away ∧
      s.status s.reaperThread = .sleeping ∧ ¬s.Kept := by
  have h : (queueSystem (Fin 4) Unit).Reachable _ := .of_foldlM (f := QueueState.step)
    (fun _ _ _ h => h)
    [.spawn 1, .interrupt, .scan 1, .schedule, .schedule, .schedule, .reaper, .run, .interrupt,
      .schedule, .schedule, .schedule, .schedule, .schedule, .schedule]
    (.init QueueState.boot_init) rfl
  refine ⟨_, h, rfl, rfl, rfl, fun hkept => ?_⟩
  exact absurd (hkept 1 (by decide) (by decide)) (by decide)

end Ilobilix.Scheduler
