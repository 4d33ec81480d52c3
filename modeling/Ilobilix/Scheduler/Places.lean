import Ilobilix.Scheduler.Queues

/-!
# Every thread is in one place

A thread that has been created is in exactly one place: in one of the queues, among the dead
threads, or carried by the processor. The processor carries the running thread until it is in the
sleep queue or `schedule` has put it away, the thread `schedule` has taken from the run queue, and
the one the sleeper is moving. A thread `schedule` leaves in no queue is counted as lost.

`Control` is what the control points say about statuses and locks, and `Inv` adds the places. The
lemmas here are about the writes the steps are made of.
-/

namespace Ilobilix.Scheduler

/-! ## What the control points say -/

namespace SleepPc

/-- The thread is in the sleep queue or about to be inserted. -/
def asleep : SleepPc → Bool
  | .insert _ | .queued _ => true
  | _ => false

/-- The thread has written `sleeping`. -/
def prepared : SleepPc → Bool
  | .yield _ | .insert _ | .queued _ => true
  | _ => false

/-- The thread has taken its own `sleep_lock`, which `schedule` releases. -/
def locked : SleepPc → Bool
  | .write _ | .yield true | .insert true | .queued true => true
  | _ => false

/-- The thread goes to sleep without its lock. -/
def unlocked : SleepPc → Bool
  | .reaper | .yield false | .insert false | .queued false => true
  | _ => false

end SleepPc

namespace HandoverPc

variable {T : Type*}

/-- `schedule` has not released the `sleep_lock` of the current thread. -/
def beforeUnlock : HandoverPc T → Bool
  | .away | .scan | .check _ | .unlock _ | .stay => true
  | _ => false

def rereads : HandoverPc T → Bool
  | .reread _ => true
  | _ => false

/-- `schedule` has decided that the current thread does not sleep. -/
def keepsAwake : HandoverPc T → Bool
  | .enqueue _ | .insert _ | .stay => true
  | _ => false

/-- `schedule` has found out that the current thread is not the idle thread. -/
def handsOver : HandoverPc T → Bool
  | .unlock _ | .reread _ | .enqueue _ | .insert _ | .stay => true
  | _ => false

/-- `schedule` is about to insert the current thread into the run queue. -/
def inserts : HandoverPc T → Bool
  | .insert _ => true
  | _ => false

/-- `schedule` has put the current thread away. -/
def putAway : HandoverPc T → Bool
  | .reap _ | .switch _ => true
  | _ => false

def next : HandoverPc T → Option T
  | .check next | .unlock next | .reread next | .enqueue next | .insert next | .reap next
  | .switch next => next
  | .away | .scan | .stay => none

end HandoverPc

/-- The thread the sleeper has decided to remove from the sleep queue. -/
def SleeperPc.removing {T : Type*} : SleeperPc T → Option T
  | .expired t | .woken t | .killed t => some t
  | _ => none

/-- The thread the sleeper has removed from the sleep queue. -/
def SleeperPc.carried {T : Type*} : SleeperPc T → Option T
  | .write t | .insert t => some t
  | _ => none

/-- The thread the sleeper moves to the run queue, from when it has found or made it ready. -/
def SleeperPc.readied {T : Type*} : SleeperPc T → Option T
  | .woken t | .insert t => some t
  | _ => none

/-- The thread whose `sleep_lock` the call holds. -/
def WakerPc.locked {T : Type*} : WakerPc T → Option T
  | .check t | .write t | .unlock t => some t
  | _ => none

namespace QueueState

variable {T W : Type*}

structure Control (s : QueueState T W) : Prop where
  asleep : s.schedule.beforeUnlock = true ∨ s.schedule.rereads = true →
    (s.pc s.runningThread).asleep = true → s.status s.runningThread = .sleeping
  awake : s.schedule.beforeUnlock = true → s.status s.runningThread = .sleeping →
    (s.pc s.runningThread).prepared = true
  locked : s.schedule.beforeUnlock = true → s.runningThread ≠ s.reaperThread →
    (s.pc s.runningThread).locked = true → s.sleepLock s.runningThread = some .self
  interrupted : s.schedule ≠ .away → (s.pc s.runningThread).interruptible = true
  unlock : ∀ next, s.schedule = .unlock next → s.runningThread ≠ s.reaperThread →
    s.pc s.runningThread = .queued true
  keepsAwake : s.schedule.keepsAwake = true → (s.pc s.runningThread).asleep = false
  handsOver : s.schedule.handsOver = true → s.runningThread ≠ s.idleThread
  putAway : s.schedule.putAway = true → (s.pc s.runningThread).asleep = true →
    (s.pc s.runningThread).isQueued = true ∨ s.runningThread ∈ s.lost
  reaperPc : ∀ t, (s.pc t).unlocked = true → t = s.reaperThread
  parked : ∀ t, t ≠ s.runningThread → t ≠ s.reaperThread → s.pc t = .out
  lost : ∀ t, t ≠ s.runningThread → (s.pc t).asleep = true → t ∈ s.lost
  idlePc : s.pc s.idleThread = .out
  idle : s.status s.idleThread ≠ .sleeping
  killed : ∀ t, s.status t ≠ .killed
  sleeper : s.sleeper ≠ .away → s.schedule = .away ∧ s.pc s.runningThread = .out
  removing : ∀ t, s.sleeper.removing = some t → t ∈ s.sleepQueue
  wakers : ∀ w t, t ≠ s.reaperThread → (s.wakers w).locked = some t →
    s.sleepLock t = some (.waker w)

variable {s s' : QueueState T W}

/-- `schedule` goes on, with the current thread interrupted. -/
theorem Control.handover (h : s.Control) {pc : HandoverPc T} {queue dead lost : List T}
    {found : Bool} (hsleeper : s.sleeper = .away)
    (hpc : (s.pc s.runningThread).interruptible = true)
    (hbefore : pc.beforeUnlock = true → s.schedule.beforeUnlock = true)
    (hrereads : pc.rereads = true →
      s.schedule.beforeUnlock = true ∨ s.schedule.rereads = true)
    (hunlock : ∀ next, pc = .unlock next → s.runningThread ≠ s.reaperThread →
      s.pc s.runningThread = .queued true)
    (hkeeps : pc.keepsAwake = true → (s.pc s.runningThread).asleep = false)
    (hhands : pc.handsOver = true → s.runningThread ≠ s.idleThread)
    (hput : pc.putAway = true → (s.pc s.runningThread).asleep = true →
      (s.pc s.runningThread).isQueued = true ∨ s.runningThread ∈ lost)
    (hlost : ∀ t ∈ s.lost, t ∈ lost) :
    Control { s with
      schedule := pc, queue := queue, deadThreads := dead, foundDead := found, lost := lost } :=
  { h with
    asleep := fun hu => h.asleep (hu.elim (fun hb => .inl (hbefore hb)) hrereads)
    awake := fun hu => h.awake (hbefore hu)
    locked := fun hu => h.locked (hbefore hu)
    interrupted := fun _ => hpc
    unlock := hunlock
    keepsAwake := hkeeps
    handsOver := hhands
    putAway := hput
    lost := fun t ht ha => hlost t (h.lost t ht ha)
    sleeper := fun hne => absurd hsleeper hne }

/-- `schedule` only runs outside the sleeper's loop. -/
theorem Control.sleeper_away (h : s.Control) (hne : s.schedule ≠ .away) : s.sleeper = .away := by
  by_contra hs
  exact hne (h.sleeper hs).1

/-- A thread on its way to sleep is neither the sleeper in its loop nor the idle thread. -/
theorem Control.of_pc (h : s.Control) (hpc : s.pc s.runningThread ≠ .out) :
    s.sleeper = .away ∧ s.runningThread ≠ s.idleThread := by
  constructor
  · by_contra hne
    exact hpc (h.sleeper hne).2
  · intro hidle
    exact hpc (hidle ▸ h.idlePc)

/-- A call of `wake_up` goes on. -/
theorem Control.setWaker [DecidableEq W] (h : s.Control) {w : W} {pc : WakerPc T}
    (hpc : ∀ t, t ≠ s.reaperThread → pc.locked = some t → s.sleepLock t = some (.waker w)) :
    Control (s.setWaker w pc) := by
  refine { h with wakers := fun w' t hr ht => ?_ }
  by_cases hw : w' = w
  · subst hw
    exact hpc t hr (by simpa [QueueState.setWaker] using ht)
  · exact h.wakers w' t hr (by simpa [QueueState.setWaker, hw] using ht)

variable [DecidableEq T]

/-- A write of `ready` or `running`, which must not wake the current thread while `schedule` has not
decided what to do with it. -/
theorem Control.setStatus (h : s.Control) {t : T} {status : Status} (hsleeping : status ≠ .sleeping)
    (hkilled : status ≠ .killed)
    (hcurrent : t = s.runningThread →
      s.schedule.beforeUnlock = true ∨ s.schedule.rereads = true →
      (s.pc s.runningThread).asleep = false) : Control (s.setStatus t status) := by
  have hother : ∀ t', (s.setStatus t status).status t' = .sleeping → s.status t' = .sleeping := by
    intro t' ht'
    simp only [QueueState.setStatus, Function.update_apply] at ht'
    split at ht'
    · exact absurd ht' hsleeping
    · exact ht'
  refine { h with
    asleep := fun hu ha => ?_, awake := fun hu hs => h.awake hu (hother _ hs)
    idle := fun hs => h.idle (hother _ hs), killed := fun t' ht' => ?_ }
  · have hne : s.runningThread ≠ t := by
      rintro rfl
      exact absurd ha (ne_true_of_eq_false (hcurrent rfl hu))
    simpa [QueueState.setStatus, hne] using h.asleep hu ha
  · simp only [QueueState.setStatus, Function.update_apply] at ht'
    split at ht'
    · exact hkilled ht'
    · exact h.killed t' ht'

/-- The lock of a thread changes hands. -/
theorem Control.setLock (h : s.Control) (t : T) (holder : Option (SleepLockHolder W))
    (hcurrent : t = s.runningThread → s.schedule.beforeUnlock = true → t ≠ s.reaperThread →
      (s.pc s.runningThread).locked = true → holder = some .self)
    (hwakers : ∀ w, t ≠ s.reaperThread → (s.wakers w).locked = some t →
      holder = some (.waker w)) :
    Control (s.setLock t holder) := by
  refine { h with locked := fun hu hr hl => ?_, wakers := fun w t' hr ht' => ?_ }
  · by_cases ht : s.runningThread = t
    · have hholder := hcurrent ht.symm hu (ht ▸ hr) hl
      simpa [QueueState.setLock, ht] using hholder
    · simpa [QueueState.setLock, ht] using h.locked hu hr hl
  · by_cases ht : t' = t
    · subst ht
      simpa [QueueState.setLock] using hwakers w hr ht'
    · simpa [QueueState.setLock, ht] using h.wakers w t' hr ht'

/-- A step of the current thread, while `schedule` and the sleeper are away. -/
theorem Control.runThread (h : s.Control) (haway : s.schedule = .away) (hsleeper : s.sleeper = .away)
    (hidle : s.runningThread ≠ s.idleThread) (pc : SleepPc) (status : Status)
    (holder : Option (SleepLockHolder W))
    (hasleep : pc.asleep = true → status = .sleeping)
    (hawake : status = .sleeping → pc.prepared = true) (hkilled : status ≠ .killed)
    (hlocked : pc.locked = true → s.runningThread ≠ s.reaperThread → holder = some .self)
    (hreaper : pc.unlocked = true → s.runningThread = s.reaperThread)
    (hwakers : ∀ w, s.runningThread ≠ s.reaperThread →
      (s.wakers w).locked = some s.runningThread → holder = some (.waker w)) :
    Control { s with
      pc := Function.update s.pc s.runningThread pc
      status := Function.update s.status s.runningThread status
      sleepLock := Function.update s.sleepLock s.runningThread holder } := by
  constructor
  case asleep => simpa using fun _ => hasleep
  case awake => simpa using fun _ => hawake
  case locked => simpa using fun _ hr hl => hlocked hl hr
  case interrupted => exact fun hne => absurd haway hne
  case unlock => simp [haway]
  case keepsAwake => simp [haway, HandoverPc.keepsAwake]
  case handsOver => exact fun _ => hidle
  case putAway => simp [haway, HandoverPc.putAway]
  case reaperPc =>
    intro t ht
    by_cases htr : t = s.runningThread
    · subst htr
      exact hreaper (by simpa using ht)
    · exact h.reaperPc t (by simpa [htr] using ht)
  case parked =>
    intro t ht hr
    simpa [ht] using h.parked t ht hr
  case lost =>
    intro t ht ha
    exact h.lost t ht (by simpa [ht] using ha)
  case idlePc => simpa [hidle.symm] using h.idlePc
  case idle => simpa [hidle.symm] using h.idle
  case killed =>
    intro t
    by_cases htr : t = s.runningThread
    · simpa [htr] using hkilled
    · simpa [htr] using h.killed t
  case sleeper => exact fun hne => absurd hsleeper hne
  case removing => exact h.removing
  case wakers =>
    intro w t hr ht
    by_cases htr : t = s.runningThread
    · subst htr
      simpa using hwakers w hr ht
    · simpa [htr] using h.wakers w t hr ht

/-- A step of the current thread that moves only its control point. -/
theorem Control.setPc (h : s.Control) (haway : s.schedule = .away) (hsleeper : s.sleeper = .away)
    (hidle : s.runningThread ≠ s.idleThread) (pc : SleepPc)
    (hasleep : pc.asleep = true → s.status s.runningThread = .sleeping)
    (hawake : s.status s.runningThread = .sleeping → pc.prepared = true)
    (hlocked : pc.locked = true → s.runningThread ≠ s.reaperThread →
      s.sleepLock s.runningThread = some .self)
    (hreaper : pc.unlocked = true → s.runningThread = s.reaperThread) : Control (s.setPc pc) := by
  have hc := h.runThread haway hsleeper hidle pc (s.status s.runningThread)
    (s.sleepLock s.runningThread) hasleep hawake (h.killed _) hlocked hreaper
    fun w hr hw => h.wakers w _ hr hw
  rwa [Function.update_eq_self, Function.update_eq_self] at hc

/-! ## The places of the threads -/

/-- The current thread, as long as it is in no queue. The idle thread is kept outside the queues. -/
def held (schedule : HandoverPc T) (pc : SleepPc) (running idle : T) : List T :=
  if schedule.putAway = true ∨ pc.isQueued = true ∨ running = idle then [] else [running]

/-- All places a thread can be in. -/
def places (s : QueueState T W) : List T :=
  s.queue ++ s.sleepQueue ++ s.deadThreads ++ s.lost ++ s.idleThread ::
    held s.schedule (s.pc s.runningThread) s.runningThread s.idleThread ++
    s.schedule.next.toList ++ s.sleeper.carried.toList

/-- The thread is in the run queue, about to be inserted, or just taken from it. -/
def Readied (s : QueueState T W) (t : T) : Prop :=
  t ∈ s.queue ∨ s.schedule.inserts = true ∧ t = s.runningThread ∨ s.sleeper.readied = some t ∨
    s.schedule.next = some t

structure Inv (s : QueueState T W) : Prop where
  control : s.Control
  places : ∀ t, s.places.count t = if s.status t = .notReady then 0 else 1
  ready : ∀ t, s.Readied t → s.status t = .ready
  created : ∀ w t, s.wakers w = .write t → s.status t ≠ .notReady

theorem count_places (s : QueueState T W) (t : T) : s.places.count t =
    s.queue.count t + s.sleepQueue.count t + s.deadThreads.count t + s.lost.count t +
      [s.idleThread].count t +
      (held s.schedule (s.pc s.runningThread) s.runningThread s.idleThread).count t +
      s.schedule.next.toList.count t + s.sleeper.carried.toList.count t := by
  simp only [QueueState.places, List.count_append, List.count_cons, List.count_nil]
  omega

section Held

variable {schedule : HandoverPc T} {pc : SleepPc} {running idle : T}

theorem held_of_putAway (h : schedule.putAway = true) : held schedule pc running idle = [] :=
  if_pos (.inl h)

theorem held_of_queued (h : pc.isQueued = true) : held schedule pc running idle = [] :=
  if_pos (.inr (.inl h))

theorem held_of_idle : held schedule pc idle idle = [] := if_pos (.inr (.inr rfl))

theorem held_eq (hput : schedule.putAway = false) (hpc : pc.isQueued = false)
    (hidle : running ≠ idle) : held schedule pc running idle = [running] :=
  if_neg (by simp [hput, hpc, hidle])

theorem held_congr {schedule' : HandoverPc T} {pc' : SleepPc}
    (hput : schedule'.putAway = schedule.putAway) (hpc : pc'.isQueued = pc.isQueued) :
    held schedule' pc' running idle = held schedule pc running idle := by
  simp only [held, hput, hpc]

end Held

theorem Inv.count_le (h : s.Inv) (t : T) : s.places.count t ≤ 1 := by
  rw [h.places]
  split <;> omega

/-- A thread the processor carries is in none of the queues. -/
theorem Inv.not_mem_of_held (h : s.Inv) {t : T}
    (ht : t ∈ held s.schedule (s.pc s.runningThread) s.runningThread s.idleThread) :
    t ∉ s.queue := by
  intro hq
  have hle := h.count_le t
  rw [count_places] at hle
  have h1 := List.count_pos_iff.mpr ht
  have h2 := List.count_pos_iff.mpr hq
  omega

theorem Inv.not_mem_of_next (h : s.Inv) {t : T} (ht : s.schedule.next = some t) :
    t ∉ s.queue ∧ t ∉ s.lost ∧ t ≠ s.idleThread := by
  have hle := h.count_le t
  rw [count_places, ht] at hle
  have h1 : (some t).toList.count t = 1 := by simp
  refine ⟨fun hq => ?_, fun hl => ?_, fun hi => ?_⟩
  · have h2 := List.count_pos_iff.mpr hq
    omega
  · have h2 := List.count_pos_iff.mpr hl
    omega
  · have h2 : [s.idleThread].count t = 1 := by simp [hi]
    omega

theorem Inv.idle_not_mem (h : s.Inv) : s.idleThread ∉ s.queue := by
  intro hq
  have hle := h.count_le s.idleThread
  rw [count_places] at hle
  have h1 : [s.idleThread].count s.idleThread = 1 := by simp
  have h2 := List.count_pos_iff.mpr hq
  omega

theorem Inv.exclusive (h : s.Inv) : s.Exclusive := by
  have hle : ∀ t, s.queue.count t + s.sleepQueue.count t ≤ 1 := by
    intro t
    have hle := h.count_le t
    rw [count_places] at hle
    omega
  refine ⟨fun t ht => ?_, List.nodup_iff_count_le_one.mpr fun t => ?_,
    List.nodup_iff_count_le_one.mpr fun t => ?_⟩
  · have hq := List.count_pos_iff.mpr ht.1
    have hs := List.count_pos_iff.mpr ht.2
    have := hle t
    omega
  · exact Nat.le_trans (Nat.le_add_right _ _) (hle t)
  · exact Nat.le_trans (Nat.le_add_left _ _) (hle t)

/-- A step that moves threads from one place to another. -/
theorem Inv.move (h : s.Inv) (hwakers : s'.wakers = s.wakers) (hcontrol : s'.Control)
    (hplaces : ∀ t, s'.places.count t = s.places.count t)
    (hfresh : ∀ t, s'.status t = .notReady ↔ s.status t = .notReady)
    (hready : ∀ t, s'.Readied t → s'.status t = .ready) : s'.Inv := by
  refine ⟨hcontrol, fun t => ?_, hready, fun w t ht => ?_⟩
  · rw [hplaces, h.places]
    simp only [hfresh]
  · rw [Ne, hfresh]
    exact h.created w t (hwakers ▸ ht)

end QueueState

end Ilobilix.Scheduler
