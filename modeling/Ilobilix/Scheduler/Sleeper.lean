import Ilobilix.Scheduler.Exclusive
import Mathlib.Algebra.GroupWithZero.Nat
import Mathlib.Data.List.Sort
import Mathlib.Order.Defs.LinearOrder

/-!
# The keys of the run queue

The run queue is ordered by `vruntime`. The key of a thread is written by `thread::create`, by
`schedule` when it charges the current thread and by the sleeper, which gives a thread whose time has
come the `vruntime` of `*begin`: the first thread of the sleep queue at the start of the scan, whatever
has become of it since. A thread with little `vruntime` that has slept for long then comes before all of
the run queue, and so do the threads that the same scan moves after it.

The queues are those of the model with its control points, and `tree` is the run queue in its order.
What `schedule` charges and which thread is the first of the sleep queue depend on the clock, which the
steps take as a choice.
-/

namespace Ilobilix.Scheduler

/-- The current thread has just been charged. -/
def HandoverPc.charged {T : Type*} : HandoverPc T → Bool
  | .reread _ | .stay => true
  | _ => false

/-- The queues with the keys of the threads. -/
structure RuntimeState (T W : Type*) where
  queues : QueueState T W
  vruntime : T → UInt64
  tree : List T
  /-- The sleeper's `begin`. -/
  begin : Option T
  /-- The time of the thread that the sleeper carries has come. -/
  expired : Bool
  /-- For each thread that was moved because its time had come, the `vruntime` that it was given and
  the smallest one in the run queue then. The source keeps no track of them, and no step reads this
  list. -/
  moved : List (UInt64 × Option UInt64)

structure RuntimeStep (T W : Type*) where
  queues : QueueStep T W
  /-- What `schedule` charges the current thread. -/
  vtime : UInt64
  /-- The first thread of the sleep queue. -/
  begin : Option T

namespace RuntimeState

variable {T W : Type*} [DecidableEq T] [DecidableEq W]

/-- `insert` of the run queue: behind the threads whose key is not above that of `t`. -/
def insert (s : RuntimeState T W) (t : T) : RuntimeState T W :=
  { s with tree := s.tree.orderedInsert (fun a b => s.vruntime a < s.vruntime b) t }

/-- The smallest `vruntime` in the run queue. -/
def least (s : RuntimeState T W) : Option UInt64 := (s.tree.map s.vruntime).min?

def setVruntime (s : RuntimeState T W) (t : T) (v : UInt64) : RuntimeState T W :=
  { s with vruntime := Function.update s.vruntime t v }

/-- `thread->vruntime = begin->vruntime` and the `insert` that follows. -/
def move (s : RuntimeState T W) (t begin : T) : RuntimeState T W :=
  let v := s.vruntime begin
  (({ s with moved := (v, s.least) :: s.moved }).setVruntime t v).insert t

/-- What a step does to the keys and to the order; `s` has the queues of before the step. -/
def keys (s : RuntimeState T W) (e : RuntimeStep T W) (q : QueueState T W) :
    Option (RuntimeState T W) :=
  match e.queues with
  | .spawn t => some ((s.setVruntime t 0).insert t)
  | .scan t =>
      match s.queues.status t with
      | .notReady => some s
      | _ => some { s with tree := s.tree.erase t }
  | .schedule =>
      match s.queues.schedule with
      | .insert _ => some (s.insert s.queues.runningThread)
      | _ =>
          let current := s.queues.runningThread
          if q.schedule.charged then some (s.setVruntime current (s.vruntime current + e.vtime))
          else some s
  | .enterSleeper =>
      match e.begin with
      | none => none
      | some t => if t ∈ s.queues.sleepQueue then some { s with begin := some t } else none
  | .sleeper =>
      match s.queues.sleeper with
      | .write _ => some { s with expired := true }
      | .woken _ => some { s with expired := false }
      | .insert t =>
          if s.expired then s.begin.map (s.move t) else some (s.insert t)
      | _ => some s
  | _ => some s

def step (s : RuntimeState T W) (e : RuntimeStep T W) : Option (RuntimeState T W) :=
  match s.queues.step e.queues with
  | none => none
  | some q => (s.keys e q).map fun s' => { s' with queues := q }

/-- No thread that was moved because its time had come was given a `vruntime` below the smallest one in
the run queue, which is in order. -/
structure Fair (s : RuntimeState T W) : Prop where
  moved : ∀ m ∈ s.moved, ∀ least ∈ m.2, least ≤ m.1
  sorted : s.tree.Pairwise fun a b => s.vruntime a ≤ s.vruntime b

/-- `wake_up` keeps out of the window in which a thread gets into both queues, and when the sleeper moves
a thread whose time has come, `*begin` is not in front of all of the run queue. -/
def beginBehind (s : RuntimeState T W) (e : RuntimeStep T W) : Bool :=
  s.queues.wakesInOrder e.queues &&
    match e.queues, s.queues.sleeper, s.begin with
    | .sleeper, .insert _, some begin =>
        !s.expired || s.tree.isEmpty || s.tree.any fun u => s.vruntime u ≤ s.vruntime begin
    | _, _, _ => true

end RuntimeState

/-- One processor from the end of `start`. -/
def runtimeSystem (T W : Type*) [DecidableEq T] [DecidableEq W] :
    TransitionSystem (RuntimeState T W) (RuntimeStep T W) where
  init s := (queueSystem T W).init s.queues ∧ s.tree = [] ∧ s.moved = []
  step s e s' := s.step e = some s'

/-! ## What the steps do to the run queue -/

/-- The step may change the run queue. -/
def QueueStep.queues {T W : Type*} : QueueStep T W → Bool
  | .spawn _ | .scan _ | .schedule | .sleeper => true
  | _ => false

namespace QueueState

variable {T W : Type*} [DecidableEq T] {s q : QueueState T W}

theorem queue_spawn {t : T} (h : s.spawn t = some q) :
    s.status t = .notReady ∧ q.queue = t :: s.queue := by
  rw [spawn] at h
  split at h
  · rename_i hnew
    cases h
    exact ⟨hnew, rfl⟩
  · cases h

theorem queue_scan {t : T} (h : s.scan t = some q) :
    q.queue = match s.status t with
      | .notReady => s.queue
      | _ => s.queue.erase t := by
  rw [scan] at h
  split at h
  · cases hstatus : s.status t <;> rw [hstatus] at h <;> cases h <;> rfl
  · cases h

theorem queue_wakeReaper (s : QueueState T W) : s.wakeReaper.queue = s.queue := by
  unfold wakeReaper
  split <;> rfl

theorem queue_runSchedule (h : s.runSchedule = some q) :
    q.queue = match s.schedule with
      | .insert _ => s.runningThread :: s.queue
      | _ => s.queue := by
  cases hsched : s.schedule with
  | away =>
      rw [runSchedule, hsched] at h
      cases h
  | scan | check next | reread next | enqueue next =>
      simp only [runSchedule, hsched] at h
      repeat' split at h
      all_goals cases h
      all_goals rfl
  | unlock next | insert next =>
      simp only [runSchedule, hsched] at h
      cases h
      rfl
  | stay | reap next =>
      simp only [runSchedule, hsched, Option.some.injEq] at h
      rw [← h]
      exact queue_wakeReaper s
  | switch next =>
      simp only [runSchedule, hsched] at h
      split at h <;> cases h <;> rfl

/-- The current thread is charged on the way from the first look at its status to the second one. -/
theorem charged_runSchedule (hinv : s.Inv) (h : s.runSchedule = some q)
    (hcharged : q.schedule.charged = true) :
    s.schedule.beforeUnlock = true ∧ s.runningThread ≠ s.idleThread := by
  cases hsched : s.schedule with
  | away =>
      rw [runSchedule, hsched] at h
      cases h
  | scan =>
      simp only [runSchedule, hsched] at h
      split at h <;> cases h
      cases hcharged
  | check next =>
      refine ⟨rfl, fun hidle => ?_⟩
      simp only [runSchedule, hsched, if_pos hidle] at h
      split at h <;> cases h <;> cases hcharged
  | unlock next => exact ⟨rfl, hinv.control.handsOver (by rw [hsched]; rfl)⟩
  | reread next | enqueue next =>
      simp only [runSchedule, hsched] at h
      repeat' split at h
      all_goals cases h
      all_goals cases hcharged
  | insert next =>
      simp only [runSchedule, hsched] at h
      cases h
      cases hcharged
  | stay | reap next =>
      simp only [runSchedule, hsched, Option.some.injEq] at h
      rw [← h] at hcharged
      cases hcharged
  | switch next =>
      simp only [runSchedule, hsched] at h
      split at h <;> cases h <;> cases hcharged

theorem queue_runSleeper (h : s.runSleeper = some q) :
    q.queue = match s.sleeper with
      | .insert t => t :: s.queue
      | _ => s.queue := by
  cases hsleeper : s.sleeper <;> rw [runSleeper, hsleeper] at h <;> cases h <;> rfl

/-- The steps that leave the run queue alone. -/
theorem queue_step [DecidableEq W] {e : QueueStep T W} (h : s.step e = some q)
    (he : e.queues = false) : q.queue = s.queue := by
  cases e with
  | spawn t | scan t | schedule | sleeper => cases he
  | prepareSleep timed | reaper | interrupt | enterSleeper | leaveSleeper | wakeUp w t =>
      simp only [step] at h
      split at h <;> cases h
      rfl
  | run =>
      simp only [step, run] at h
      repeat' split at h
      all_goals cases h
      all_goals rfl
  | examine t expired =>
      simp only [step, examine] at h
      repeat' split at h
      all_goals cases h
      all_goals rfl
  | waker w =>
      simp only [step, runWaker] at h
      repeat' split at h
      all_goals cases h
      all_goals rfl

/-- The current thread is not in the run queue while `schedule` has not put it away. -/
theorem Inv.running_not_mem (h : s.Inv) (hbefore : s.schedule.beforeUnlock = true)
    (hidle : s.runningThread ≠ s.idleThread) : s.runningThread ∉ s.queue := by
  have hput : s.schedule.putAway = false := by
    cases hsched : s.schedule <;> rw [hsched] at hbefore <;> first | rfl | cases hbefore
  by_cases hqueued : (s.pc s.runningThread).isQueued = true
  · -- a thread in the sleep queue is asleep, one in the run queue is ready
    have hasleep : (s.pc s.runningThread).asleep = true := by
      cases hpc : s.pc s.runningThread <;> rw [hpc] at hqueued <;> first | rfl | cases hqueued
    have hstatus := h.control.asleep (Or.inl hbefore) hasleep
    intro hmem
    cases hstatus.symm.trans (h.ready _ (Or.inl hmem))
  · refine h.not_mem_of_held ?_
    rw [held_eq hput (Bool.eq_false_iff.mpr hqueued) hidle]
    exact List.mem_cons_self

theorem Inv.inserted_not_mem (h : s.Inv) {next : Option T} (hsched : s.schedule = .insert next) :
    s.runningThread ∉ s.queue := by
  refine h.not_mem_of_held ?_
  have hawake := h.control.keepsAwake (by rw [hsched]; rfl)
  have hqueued : (s.pc s.runningThread).isQueued = false := by
    cases hpc : s.pc s.runningThread <;> rw [hpc] at hawake <;> first | rfl | cases hawake
  rw [held_eq (by rw [hsched]; rfl) hqueued (h.control.handsOver (by rw [hsched]; rfl))]
  exact List.mem_cons_self

theorem Inv.new_not_mem (h : s.Inv) {t : T} (hnew : s.status t = .notReady) : t ∉ s.queue := by
  have hzero := h.places t
  rw [if_pos hnew, count_places] at hzero
  exact List.count_eq_zero.mp (by omega)

theorem Inv.carried_not_mem (h : s.Inv) {t : T} (hcarried : s.sleeper.carried = some t) :
    t ∉ s.queue := by
  have hle := h.count_le t
  have hone : (some t).toList.count t = 1 := List.count_singleton_self
  rw [count_places, hcarried, hone] at hle
  exact List.count_eq_zero.mp (by omega)

end QueueState

/-! ## The order of the run queue -/

namespace RuntimeState

variable {T W : Type*}

theorem pairwise_orderedInsert {v : T → UInt64} {l : List T} (h : l.Pairwise fun a b => v a ≤ v b)
    (t : T) : (l.orderedInsert (fun a b => v a < v b) t).Pairwise fun a b => v a ≤ v b := by
  induction l with
  | nil => exact List.pairwise_singleton _ t
  | cons u l ih =>
      obtain ⟨hu, hl⟩ := List.pairwise_cons.mp h
      rw [List.orderedInsert_cons]
      by_cases hlt : v t < v u
      · rw [if_pos hlt]
        refine List.pairwise_cons.mpr ⟨fun w hw => ?_, h⟩
        rcases List.mem_cons.mp hw with rfl | hw
        · exact UInt64.le_of_lt hlt
        · exact UInt64.le_trans (UInt64.le_of_lt hlt) (hu w hw)
      · rw [if_neg hlt]
        refine List.pairwise_cons.mpr ⟨fun w hw => ?_, ih hl⟩
        rcases (List.mem_orderedInsert _).mp hw with rfl | hw
        · exact UInt64.not_lt.mp hlt
        · exact hu w hw

theorem Fair.insert {s : RuntimeState T W} (h : s.Fair) (t : T) : (s.insert t).Fair :=
  ⟨h.moved, pairwise_orderedInsert h.sorted t⟩

/-- The smallest key is not above that of `*begin`, unless the run queue is empty. -/
theorem least_le {s : RuntimeState T W} {v : UInt64}
    (h : s.tree = [] ∨ ∃ u ∈ s.tree, s.vruntime u ≤ v) : ∀ least ∈ s.least, least ≤ v := by
  intro least hleast
  obtain ⟨hmem, hmin⟩ := List.min?_eq_some_iff.mp hleast
  rcases h with hnil | ⟨u, hu, hle⟩
  · rw [hnil] at hmem
    cases hmem
  · exact UInt64.le_trans (hmin _ (List.mem_map_of_mem hu)) hle

variable [DecidableEq T]

/-- The key of a thread outside the run queue. -/
theorem Fair.setVruntime {s : RuntimeState T W} (h : s.Fair) {t : T} (ht : t ∉ s.tree) (v : UInt64) :
    (s.setVruntime t v).Fair := by
  refine ⟨h.moved, h.sorted.imp_of_mem fun {a b} ha hb hab => ?_⟩
  have hne : ∀ u ∈ s.tree, Function.update s.vruntime t v u = s.vruntime u := fun u hu =>
    Function.update_of_ne (by rintro rfl; exact ht hu) _ _
  change Function.update s.vruntime t v a ≤ Function.update s.vruntime t v b
  rwa [hne a ha, hne b hb]

theorem Fair.move {s : RuntimeState T W} (h : s.Fair) {t begin : T} (ht : t ∉ s.tree)
    (hbegin : s.tree = [] ∨ ∃ u ∈ s.tree, s.vruntime u ≤ s.vruntime begin) :
    (s.move t begin).Fair := by
  have hmoved : Fair { s with moved := (s.vruntime begin, s.least) :: s.moved } := by
    refine ⟨fun m hm => ?_, h.sorted⟩
    rcases List.mem_cons.mp hm with rfl | hm
    · exact least_le hbegin
    · exact h.moved m hm
  exact (hmoved.setVruntime ht _).insert t

/-- The move is fair exactly if `*begin` is not in front of all of the run queue. -/
theorem Fair.move_iff {s : RuntimeState T W} (h : s.Fair) {t begin : T} (ht : t ∉ s.tree) :
    (s.move t begin).Fair ↔ s.tree = [] ∨ ∃ u ∈ s.tree, s.vruntime u ≤ s.vruntime begin := by
  refine ⟨fun hfair => ?_, h.move ht⟩
  by_cases hnil : s.tree = []
  · exact Or.inl hnil
  · obtain ⟨least, hleast⟩ : ∃ least, s.least = some least := by
      rw [← Option.isSome_iff_exists, least, List.isSome_min?_iff]
      exact List.map_eq_nil_iff.not.mpr hnil
    have hle := hfair.moved (s.vruntime begin, s.least) List.mem_cons_self least hleast
    obtain ⟨u, hu, rfl⟩ := List.mem_map.mp (List.min?_eq_some_iff.mp hleast).1
    exact Or.inr ⟨u, hu, hle⟩

/-- The order of the run queue is that of the keys, and the queues are exclusive. -/
structure Keyed (s : RuntimeState T W) : Prop where
  queues : s.queues.Inv
  perm : s.tree.Perm s.queues.queue
  fair : s.Fair

theorem Keyed.not_mem {s : RuntimeState T W} (h : s.Keyed) {t : T} (ht : t ∉ s.queues.queue) :
    t ∉ s.tree := fun hmem => ht (h.perm.mem_iff.mp hmem)

omit [DecidableEq T] in
theorem perm_insert {s : RuntimeState T W} {queue : List T} (h : s.tree.Perm queue) (t : T) :
    (s.insert t).tree.Perm (t :: queue) :=
  (List.perm_orderedInsert _ t s.tree).trans (h.cons t)

theorem behind_of_beginBehind {s : RuntimeState T W} {e : RuntimeStep T W}
    (h : s.beginBehind e = true) (he : e.queues = .sleeper) {t : T}
    (hsleeper : s.queues.sleeper = .insert t) (hexpired : s.expired = true) {begin : T}
    (hbegin : s.begin = some begin) :
    s.tree = [] ∨ ∃ u ∈ s.tree, s.vruntime u ≤ s.vruntime begin := by
  simpa [beginBehind, he, hsleeper, hexpired, hbegin, QueueState.wakesInOrder] using h

variable [DecidableEq W]

/-- The run queue after a step, in its order. -/
theorem Keyed.keys {s : RuntimeState T W} (h : s.Keyed) {e : RuntimeStep T W}
    (hin : s.beginBehind e = true)
    {q : QueueState T W} (hq : s.queues.step e.queues = some q) {s' : RuntimeState T W}
    (hs : s.keys e q = some s') : s'.tree.Perm q.queue ∧ s'.Fair := by
  rw [RuntimeState.keys] at hs
  cases hlabel : e.queues with
  | spawn t =>
      rw [hlabel] at hs hq
      obtain ⟨hnew, hqueue⟩ := QueueState.queue_spawn hq
      cases hs
      rw [hqueue]
      exact ⟨perm_insert (s := s.setVruntime t 0) h.perm t,
        (h.fair.setVruntime (h.not_mem (h.queues.new_not_mem hnew)) 0).insert t⟩
  | scan t =>
      rw [hlabel] at hs hq
      rw [QueueState.step] at hq
      split at hq
      · have hqueue := QueueState.queue_scan hq
        have herase : ({ s with tree := s.tree.erase t } : RuntimeState T W).Fair :=
          ⟨h.fair.moved, h.fair.sorted.sublist List.erase_sublist⟩
        dsimp only at hs
        cases hstatus : s.queues.status t with
        | notReady =>
            rw [hstatus] at hs hqueue
            cases hs
            exact ⟨hqueue ▸ h.perm, h.fair⟩
        | ready | running | sleeping | killed =>
            rw [hstatus] at hs hqueue
            cases hs
            exact ⟨hqueue ▸ h.perm.erase t, herase⟩
      · cases hq
  | schedule =>
      rw [hlabel] at hs hq
      have hqueue := QueueState.queue_runSchedule hq
      dsimp only at hs
      cases hsched : s.queues.schedule with
      | insert next =>
          rw [hsched] at hs hqueue
          cases hs
          exact ⟨hqueue ▸ perm_insert h.perm _, h.fair.insert _⟩
      | away | scan | check next | unlock next | reread next | enqueue next | stay | reap next
      | switch next =>
          rw [hsched] at hs hqueue
          dsimp only at hs
          split at hs
          · rename_i hcharged
            cases hs
            obtain ⟨hbefore, hidle⟩ := QueueState.charged_runSchedule h.queues hq hcharged
            exact ⟨hqueue ▸ h.perm,
              h.fair.setVruntime (h.not_mem (h.queues.running_not_mem hbefore hidle)) _⟩
          · cases hs
            exact ⟨hqueue ▸ h.perm, h.fair⟩
  | enterSleeper =>
      rw [hlabel] at hs hq
      rw [QueueState.step] at hq
      split at hq
      · cases hq
        dsimp only at hs
        split at hs
        · cases hs
        · split at hs <;> cases hs
          exact ⟨h.perm, h.fair.moved, h.fair.sorted⟩
      · cases hq
  | sleeper =>
      rw [hlabel] at hs hq
      have hqueue := QueueState.queue_runSleeper hq
      dsimp only at hs
      cases hsleeper : s.queues.sleeper with
      | insert t =>
          have ht : t ∉ s.tree := h.not_mem (h.queues.carried_not_mem (by rw [hsleeper]; rfl))
          rw [hsleeper] at hs hqueue
          dsimp only at hs
          split at hs
          · rename_i hexpired
            obtain ⟨begin, hsome, rfl⟩ := Option.map_eq_some_iff.mp hs
            have hbehind := behind_of_beginBehind hin hlabel hsleeper hexpired hsome
            refine ⟨?_, h.fair.move ht hbehind⟩
            rw [hqueue]
            exact perm_insert (s := RuntimeState.setVruntime _ t _) h.perm t
          · cases hs
            exact ⟨hqueue ▸ perm_insert h.perm t, h.fair.insert t⟩
      | write t | woken t =>
          rw [hsleeper] at hs hqueue
          cases hs
          exact ⟨hqueue ▸ h.perm, h.fair.moved, h.fair.sorted⟩
      | away | loop | expired t | killed t =>
          rw [hsleeper] at hs hqueue
          cases hs
          exact ⟨hqueue ▸ h.perm, h.fair⟩
  | prepareSleep timed | reaper | run | interrupt | examine t expired | leaveSleeper | wakeUp w t
  | waker w =>
      have hqueue := QueueState.queue_step hq (by rw [hlabel]; rfl)
      rw [hlabel] at hs
      cases hs
      exact ⟨hqueue ▸ h.perm, h.fair⟩

theorem Keyed.step {s s' : RuntimeState T W} (h : s.Keyed) {e : RuntimeStep T W}
    (hin : s.beginBehind e = true) (hs : s.step e = some s') : s'.Keyed := by
  rw [RuntimeState.step] at hs
  rcases hq : s.queues.step e.queues with _ | q
  · rw [hq] at hs
    cases hs
  · rw [hq] at hs
    obtain ⟨s₁, hkeys, rfl⟩ := Option.map_eq_some_iff.mp hs
    obtain ⟨hperm, hfair⟩ := h.keys hin hq hkeys
    exact ⟨h.queues.step (Bool.and_eq_true_iff.mp hin).1 hq, hperm, hfair.moved, hfair.sorted⟩

theorem Keyed.of_reachable {s : RuntimeState T W}
    (h : ((runtimeSystem T W).restrict fun s e => s.beginBehind e = true).Reachable s) :
    s.Keyed := by
  refine h.invariant ?_ ?_
  · rintro s ⟨hinit, htree, hmoved⟩
    refine ⟨QueueState.Inv.init (T := T) (W := W) hinit, ?_, ?_, ?_⟩
    · rw [htree, hinit.1]
    · rw [hmoved]
      exact nofun
    · rw [htree]
      exact List.Pairwise.nil
  · intro s e s' _ hinv hs
    exact hinv.step hs.1 hs.2

/-- A step without a choice. -/
def plain (e : QueueStep T W) : RuntimeStep T W := ⟨e, 0, none⟩

/-- The processor at the end of `start`. -/
def boot : RuntimeState (Fin 4) Unit where
  queues := .boot
  vruntime := fun _ => 0
  tree := []
  begin := none
  expired := false
  moved := []

theorem boot_init : (runtimeSystem (Fin 4) Unit).init boot := ⟨QueueState.boot_init, rfl, rfl⟩

local instance : NeZero 4 := ⟨by decide⟩

/-- Thread 3 runs for the first time, goes to sleep with a timeout and is charged `vtime`. -/
def sleeps (vtime : UInt64) : List (RuntimeStep (Fin 4) Unit) :=
  ([.spawn 3, .interrupt, .scan 3, .schedule, .schedule, .schedule, .prepareSleep true, .run, .run,
      .run, .run, .interrupt, .schedule, .schedule].map plain) ++
    [⟨.schedule, vtime, none⟩] ++ [.schedule, .schedule, .schedule].map plain

/-- Thread 1 runs next, is charged `vtime` and makes room for the sleeper, which finds that the time of
thread 3 has come. -/
def wakes (vtime : UInt64) : List (RuntimeStep (Fin 4) Unit) :=
  ([.spawn 1, .interrupt, .scan 1, .schedule, .schedule, .schedule, .interrupt, .schedule].map plain) ++
    [⟨.schedule, vtime, none⟩] ++
    ([.schedule, .spawn 2, .interrupt, .scan 2, .schedule, .schedule, .schedule, .schedule, .schedule,
      .schedule].map plain) ++
    [⟨.enterSleeper, 0, some 3⟩] ++ [.examine 3 true, .sleeper, .sleeper, .sleeper].map plain

end RuntimeState

end Ilobilix.Scheduler
