import Ilobilix.Foundation.Transition
import Mathlib.Data.List.Count
import Mathlib.Data.List.Nodup

/-!
# The run queue and the sleep queue

A thread has one `rbtree_hook`, and both queues of its processor link threads through it, so a
thread must be in at most one of them and in that one only once. A thread goes to sleep in pieces:
`prepare_sleep` takes `sleep_lock` and writes `sleeping`, `yield` inserts the thread into the sleep
queue and asks for an interrupt, and `schedule` drops the lock and reads the status again to decide
whether the thread goes back to the run queue. The reaper goes to sleep in a way of its own: it
writes `sleeping` without the lock and with interrupts on.

The model has the threads of one processor, `schedule` and the sleeper thread of that processor step
by step, and any number of `wake_up` calls. The queues are lists: which of the threads comes first
depends on `vruntime` and the clock, which the steps take as a choice. `schedule` runs with
interrupts off, the sleeper's loop with preemption disabled, and a thread in the sleep queue takes
the interrupt it asked for before it goes on. Nothing writes `killed`, so the reaper never gets past
its first wait, and what it does with dead threads is not part of the model.
-/

namespace Ilobilix.Scheduler

/-- `sched::status`. -/
inductive Status
  | notReady
  | ready
  | running
  | sleeping
  | killed
  deriving DecidableEq

/-- Where a thread is on its way to sleep: what it does next. `locked` tells a thread that comes from
`prepare_sleep`, with its `sleep_lock` taken and interrupts off, from the reaper. -/
inductive SleepPc
  /-- Elsewhere, with interrupts on. -/
  | out
  | lock (timed : Bool)
  /-- The lock is taken, `status` is written next. -/
  | write (timed : Bool)
  /-- The reaper has found no dead thread, `status` is written next. -/
  | reaper
  /-- `status` is written, `yield` reads it next. -/
  | yield (locked : Bool)
  | insert (locked : Bool)
  /-- Inserted, with interrupts on: the thread waits for the interrupt. -/
  | queued (locked : Bool)
  deriving DecidableEq

/-- Where `schedule` is; `next` is the thread it has taken from the run queue. -/
inductive HandoverPc (T : Type*)
  /-- The thread runs. -/
  | away
  | scan
  | check (next : Option T)
  | unlock (next : Option T)
  /-- `current->status` is read for the second time next. -/
  | reread (next : Option T)
  | enqueue (next : Option T)
  | insert (next : Option T)
  /-- `next` is `current`. -/
  | stay
  /-- The current thread is put away: the check of `found_dead` is next. -/
  | reap (next : Option T)
  | switch (next : Option T)
  deriving DecidableEq

/-- Where the sleeper is between its `disable` and its `enable`. -/
inductive SleeperPc (T : Type*)
  | away
  | loop
  /-- `t` has slept long enough and is removed from the sleep queue next. -/
  | expired (t : T)
  /-- `t` was found ready and is removed from the sleep queue next. -/
  | woken (t : T)
  /-- `t` was found killed and is removed from the sleep queue next. -/
  | killed (t : T)
  | write (t : T)
  | insert (t : T)
  deriving DecidableEq

/-- Where a call of `wake_up` is. -/
inductive WakerPc (T : Type*)
  | out
  | lock (t : T)
  /-- The lock is taken, `status` is read next. -/
  | check (t : T)
  | write (t : T)
  | unlock (t : T)
  deriving DecidableEq

/-- Who holds the `sleep_lock` of a thread. -/
inductive SleepLockHolder (W : Type*)
  | self
  | waker (w : W)
  deriving DecidableEq

/-- `class percpu` with the fields of the threads that decide where a thread goes. -/
structure QueueState (T W : Type*) where
  queue : List T
  runningThread : T
  sleepQueue : List T
  idleThread : T
  reaperThread : T
  sleeperThread : T
  deadThreads : List T
  status : T → Status
  sleepLock : T → Option (SleepLockHolder W)
  /-- Whether `sleep_for` has a value. -/
  sleepFor : T → Bool
  /-- Whether `sleep_until` has a value. -/
  sleepUntil : T → Bool
  pc : T → SleepPc
  schedule : HandoverPc T
  foundDead : Bool
  sleeper : SleeperPc T
  wakers : W → WakerPc T
  /-- The threads `schedule` has switched away from and left in no queue. The source keeps no track
  of them, and no step reads this list. -/
  lost : List T

inductive QueueStep (T W : Type*)
  /-- `spawn_on` for this processor, on any processor. -/
  | spawn (t : T)
  | prepareSleep (timed : Bool)
  /-- The reaper looks for dead threads. -/
  | reaper
  /-- The current thread goes on inside `prepare_sleep`, `yield` or the reaper's wait. -/
  | run
  | interrupt
  /-- `schedule` meets `t` in the run queue. -/
  | scan (t : T)
  | schedule
  | enterSleeper
  /-- The sleeper meets `t`; `expired` says whether its time has come. -/
  | examine (t : T) (expired : Bool)
  | sleeper
  | leaveSleeper
  | wakeUp (w : W) (t : T)
  | waker (w : W)

namespace SleepPc

/-- Interrupts are on. -/
def interruptible : SleepPc → Bool
  | .out | .reaper | .yield false | .insert false | .queued _ => true
  | .lock _ | .write _ | .yield true | .insert true => false

def isQueued : SleepPc → Bool
  | .queued _ => true
  | _ => false

/-- Where a thread goes on after it was switched away from: if it had asked for the interrupt, `yield`
returns. -/
def resume : SleepPc → SleepPc
  | .queued _ => .out
  | pc => pc

end SleepPc

namespace QueueState

variable {T W : Type*} [DecidableEq T] [DecidableEq W]

def setStatus (s : QueueState T W) (t : T) (status : Status) : QueueState T W :=
  { s with status := Function.update s.status t status }

def setPc (s : QueueState T W) (pc : SleepPc) : QueueState T W :=
  { s with pc := Function.update s.pc s.runningThread pc }

def setLock (s : QueueState T W) (t : T) (holder : Option (SleepLockHolder W)) :
    QueueState T W :=
  { s with sleepLock := Function.update s.sleepLock t holder }

def setWaker (s : QueueState T W) (w : W) (pc : WakerPc T) : QueueState T W :=
  { s with wakers := Function.update s.wakers w pc }

/-- A new thread is nobody else's until `enqueue` has inserted it. -/
def spawn (s : QueueState T W) (t : T) : Option (QueueState T W) :=
  if s.status t = .notReady then
    some { s.setStatus t .ready with queue := t :: s.queue }
  else none

/-- The next step of the current thread on its way to sleep. -/
def run (s : QueueState T W) : Option (QueueState T W) :=
  let thread := s.runningThread
  match s.pc thread with
  | .out | .queued _ => none
  | .lock timed =>
      if s.sleepLock thread = none then some ((s.setPc (.write timed)).setLock thread (some .self))
      else none
  | .write timed =>
      some { (s.setPc (.yield true)).setStatus thread .sleeping with
        sleepFor := Function.update s.sleepFor thread timed }
  | .reaper => some ((s.setPc (.yield false)).setStatus thread .sleeping)
  | .yield locked =>
      if s.status thread = .sleeping then
        if s.sleepFor thread then
          some { s.setPc (.insert locked) with
            sleepUntil := Function.update s.sleepUntil thread true
            sleepFor := Function.update s.sleepFor thread false }
        else some (s.setPc (.insert locked))
      else some (s.setPc .out)
  | .insert locked => some { s.setPc (.queued locked) with sleepQueue := thread :: s.sleepQueue }

/-- `schedule` has found `t` in the run queue, before any thread that is ready. -/
def scan (s : QueueState T W) (t : T) : Option (QueueState T W) :=
  if t ∈ s.queue then
    match s.status t with
    | .ready => some { s with queue := s.queue.erase t, schedule := .check (some t) }
    | .killed =>
        some { s with
          queue := s.queue.erase t, deadThreads := s.deadThreads ++ [t], foundDead := true }
    | .notReady => some s
    | .sleeping | .running => none
  else none

/-- A reaper that sleeps without a timeout is made ready if a dead thread was found. -/
def wakeReaper (s : QueueState T W) : QueueState T W :=
  if s.foundDead ∧ s.status s.reaperThread = .sleeping ∧ s.sleepUntil s.reaperThread = false then
    s.setStatus s.reaperThread .ready
  else s

/-- The next step of `schedule` outside the loop over the run queue. -/
def runSchedule (s : QueueState T W) : Option (QueueState T W) :=
  let current := s.runningThread
  match s.schedule with
  | .away => none
  | .scan =>
      -- The loop ends without a thread only if it has removed or skipped all of them.
      if ∀ t ∈ s.queue, s.status t = .notReady then some { s with schedule := .check none }
      else none
  | .check next =>
      if s.status current = .killed then
        some { s with
          schedule := .reap next, deadThreads := s.deadThreads ++ [current], foundDead := true }
      else if current = s.idleThread then some { s with schedule := .reap next }
      else if next = none ∧ s.status current = .running then some { s with schedule := .stay }
      else if s.status current = .sleeping then some { s with schedule := .unlock next }
      else some { s with schedule := .reread next }
  | .unlock next => some { s.setLock current none with schedule := .reread next }
  | .reread next =>
      if s.status current ≠ .sleeping then some { s with schedule := .enqueue next }
      else if (s.pc current).isQueued then some { s with schedule := .reap next }
      else some { s with schedule := .reap next, lost := current :: s.lost }
  | .enqueue next =>
      match s.status current with
      | .killed | .notReady | .sleeping => none
      | .running => some { s.setStatus current .ready with schedule := .insert next }
      | .ready => some { s with schedule := .insert next }
  | .insert next => some { s with queue := current :: s.queue, schedule := .reap next }
  | .stay => some { s.wakeReaper with schedule := .away, foundDead := false }
  | .reap next => some { s.wakeReaper with schedule := .switch next, foundDead := false }
  | .switch next =>
      let next := next.getD s.idleThread
      let s := s.setPc (s.pc current).resume
      if next = current then some { s with schedule := .away }
      else some { s.setStatus next .running with schedule := .away, runningThread := next }

/-- The sleeper looks at `t`. -/
def examine (s : QueueState T W) (t : T) (expired : Bool) : Option (QueueState T W) :=
  if s.sleeper = .loop ∧ t ∈ s.sleepQueue then
    if s.sleepUntil t then
      if expired then some { s with sleeper := .expired t } else some s
    else
      match s.status t with
      | .ready => some { s with sleeper := .woken t }
      | .killed => some { s with sleeper := .killed t }
      | .notReady | .sleeping => some s
      | .running => none
  else none

/-- The sleeper goes on with the thread it has looked at. -/
def runSleeper (s : QueueState T W) : Option (QueueState T W) :=
  match s.sleeper with
  | .away | .loop => none
  | .expired t => some { s with sleeper := .write t, sleepQueue := s.sleepQueue.erase t }
  | .woken t => some { s with sleeper := .insert t, sleepQueue := s.sleepQueue.erase t }
  | .killed t =>
      some { s with
        sleeper := .loop, sleepQueue := s.sleepQueue.erase t, deadThreads := s.deadThreads ++ [t] }
  | .write t =>
      some { s.setStatus t .ready with
        sleeper := .insert t, sleepUntil := Function.update s.sleepUntil t false }
  | .insert t => some { s with sleeper := .loop, queue := t :: s.queue }

/-- The next step of a call of `wake_up`. -/
def runWaker (s : QueueState T W) (w : W) : Option (QueueState T W) :=
  match s.wakers w with
  | .out => none
  | .lock t =>
      if s.sleepLock t = none then some ((s.setLock t (some (.waker w))).setWaker w (.check t))
      else none
  | .check t =>
      if s.status t ≠ .sleeping then some (s.setWaker w (.unlock t))
      else some (s.setWaker w (.write t))
  | .write t => some ((s.setWaker w (.unlock t)).setStatus t .ready)
  | .unlock t => some ((s.setWaker w .out).setLock t none)

/-- The current thread runs, outside `prepare_sleep`, `yield` and the sleeper's loop. -/
def idles (s : QueueState T W) : Prop :=
  s.schedule = .away ∧ s.sleeper = .away ∧ s.runningThread ≠ s.idleThread ∧
    s.pc s.runningThread = .out

instance (s : QueueState T W) : Decidable s.idles :=
  inferInstanceAs (Decidable (_ ∧ _ ∧ _ ∧ _))

def step (s : QueueState T W) : QueueStep T W → Option (QueueState T W)
  | .spawn t => s.spawn t
  | .prepareSleep timed => if s.idles then some (s.setPc (.lock timed)) else none
  | .reaper =>
      if s.idles ∧ s.runningThread = s.reaperThread ∧ s.deadThreads = [] then
        some (s.setPc .reaper)
      else none
  | .run => if s.schedule = .away then s.run else none
  | .interrupt =>
      -- With preemption disabled `schedule` returns at once.
      if s.schedule = .away ∧ s.sleeper = .away ∧ (s.pc s.runningThread).interruptible then
        some { s with schedule := .scan }
      else none
  | .scan t => if s.schedule = .scan then s.scan t else none
  | .schedule => s.runSchedule
  | .enterSleeper =>
      if s.idles ∧ s.runningThread = s.sleeperThread then some { s with sleeper := .loop }
      else none
  | .examine t expired => s.examine t expired
  | .sleeper => s.runSleeper
  | .leaveSleeper => if s.sleeper = .loop then some { s with sleeper := .away } else none
  | .wakeUp w t => if s.wakers w = .out then some (s.setWaker w (.lock t)) else none
  | .waker w => s.runWaker w

/-- No thread is in both queues, and none is twice in one of them. -/
structure Exclusive (s : QueueState T W) : Prop where
  disjoint : ∀ t, ¬(t ∈ s.queue ∧ t ∈ s.sleepQueue)
  queue : s.queue.Nodup
  sleepQueue : s.sleepQueue.Nodup

end QueueState

/-- One processor from the end of `start`, where no thread has been created but the idle one.
`schedule` treats the boot context like the idle thread: it is put into no queue. -/
def queueSystem (T W : Type*) [DecidableEq T] [DecidableEq W] :
    TransitionSystem (QueueState T W) (QueueStep T W) where
  init s := s.queue = [] ∧ s.sleepQueue = [] ∧ s.deadThreads = [] ∧ s.lost = [] ∧
    s.runningThread = s.idleThread ∧ s.status s.idleThread = .ready ∧
    (∀ t, t ≠ s.idleThread → s.status t = .notReady) ∧ (∀ t, s.sleepLock t = none) ∧
    (∀ t, s.pc t = .out) ∧ s.schedule = .away ∧ s.sleeper = .away ∧ ∀ w, s.wakers w = .out
  step s e s' := s.step e = some s'

end Ilobilix.Scheduler
