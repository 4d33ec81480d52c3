import Ilobilix.Scheduler.Places

/-!
# The queues are exclusive

Between `sleep_lock.unlock` and the second read of the status in `schedule`, a `wake_up` makes
`schedule` put a thread into the run queue that is in the sleep queue. The reaper sleeps without the
lock, and for it the window is open from the moment it has decided to insert itself. Outside this
window every step keeps the invariant, and no thread is in both queues or twice in one of them.
-/

namespace Ilobilix.Scheduler

namespace QueueState

variable {T W : Type*} [DecidableEq T] {s s' : QueueState T W}

theorem Inv.spawn (h : s.Inv) {t : T} (hs : s.spawn t = some s') : s'.Inv := by
  simp only [QueueState.spawn] at hs
  split at hs
  · rename_i hnew
    cases hs
    have hcontrol : Control (s.setStatus t .ready) := by
      refine h.control.setStatus (by simp) (by simp) fun ht hu => ?_
      subst ht
      by_contra hasleep
      have hsleeping := h.control.asleep hu (by simpa using hasleep)
      rw [hnew] at hsleeping
      cases hsleeping
    refine ⟨{ hcontrol with }, fun t' => ?_, fun t' ht' => ?_, fun w t' hw => ?_⟩
    · have hold := h.places t'
      rw [count_places] at hold ⊢
      by_cases ht : t' = t
      · subst ht
        simp only [hnew, if_true] at hold
        simp only [QueueState.setStatus, Function.update_self, List.count_cons_self]
        simp only [reduceCtorEq, if_false]
        omega
      · simpa [QueueState.setStatus, List.count_cons, ht, Ne.symm ht] using hold
    · by_cases ht : t' = t
      · simp [ht, QueueState.setStatus]
      · simpa [QueueState.setStatus, ht] using
          h.ready t' (by simpa [Readied, QueueState.setStatus, ht] using ht')
    · by_cases ht : t' = t
      · simp [ht, QueueState.setStatus]
      · simpa [QueueState.setStatus, ht] using h.created w t' hw
  · cases hs

/-- A step of the current thread before it is in the sleep queue. -/
theorem Inv.runThread (h : s.Inv) {pc : SleepPc} {status : T → Status}
    {lock : T → Option (SleepLockHolder W)} {sleepFor sleepUntil : T → Bool}
    (hcontrol : Control { s with
      pc := Function.update s.pc s.runningThread pc, status := status, sleepLock := lock })
    (hpc : pc.isQueued = (s.pc s.runningThread).isQueued)
    (hfresh : ∀ t, status t = .notReady ↔ s.status t = .notReady)
    (hready : ∀ t, s.Readied t → status t = .ready) :
    Inv { s with
      pc := Function.update s.pc s.runningThread pc, status := status, sleepLock := lock
      sleepFor := sleepFor, sleepUntil := sleepUntil } := by
  refine h.move rfl { hcontrol with } (fun t => ?_) hfresh hready
  rw [count_places, count_places]
  simp only [Function.update_self, held_congr rfl hpc]

/-- The current thread is in no queue when it writes `sleeping`. -/
theorem Inv.writeSleeping (h : s.Inv) (haway : s.schedule = .away)
    (hout : s.pc s.runningThread ≠ .out) (hpc : (s.pc s.runningThread).isQueued = false) :
    (∀ t, Function.update s.status s.runningThread .sleeping t = .notReady ↔
      s.status t = .notReady) ∧
    ∀ t, s.Readied t → Function.update s.status s.runningThread .sleeping t = .ready := by
  obtain ⟨hsleeper, hidle⟩ := h.control.of_pc hout
  have hmem : s.runningThread ∈ held s.schedule (s.pc s.runningThread) s.runningThread
      s.idleThread := by
    rw [held_eq (by simp [haway, HandoverPc.putAway]) hpc hidle]
    exact List.mem_singleton_self _
  constructor
  · intro t
    by_cases htr : t = s.runningThread
    · subst htr
      have hcount := h.places s.runningThread
      have hpos := List.count_pos_iff.mpr hmem
      rw [count_places] at hcount
      have hne : s.status s.runningThread ≠ .notReady := by
        intro hnew
        rw [if_pos hnew] at hcount
        omega
      simp [hne]
    · simp [htr]
  · intro t ht
    have htr : t ≠ s.runningThread := by
      rintro rfl
      obtain hq | ⟨hi, -⟩ | hsl | hn := ht
      · exact h.not_mem_of_held hmem hq
      · simp [haway, HandoverPc.inserts] at hi
      · simp [hsleeper, SleeperPc.readied] at hsl
      · simp [haway, HandoverPc.next] at hn
    simpa [htr] using h.ready t ht

theorem Inv.run (h : s.Inv) (haway : s.schedule = .away) (hs : s.run = some s') : s'.Inv := by
  have hc := h.control
  have hbefore : s.schedule.beforeUnlock = true := by simp [haway, HandoverPc.beforeUnlock]
  simp only [QueueState.run] at hs
  cases hpc : s.pc s.runningThread <;> simp only [hpc] at hs
  case out | queued => cases hs
  all_goals obtain ⟨hsleeper, hidle⟩ := hc.of_pc (by simp [hpc])
  case lock timed =>
    split at hs
    · rename_i hfree
      cases hs
      have hcontrol := hc.runThread haway hsleeper hidle (.write timed) (s.status s.runningThread)
        (some .self) (by simp [SleepPc.asleep])
        (fun hsl => by simpa [hpc, SleepPc.prepared] using hc.awake hbefore hsl)
        (hc.killed _) (fun _ _ => rfl) (by simp [SleepPc.unlocked])
        (fun w hr hw => by simpa [hfree] using hc.wakers w _ hr hw)
      rw [Function.update_eq_self] at hcontrol
      exact h.runThread hcontrol (by simp [hpc, SleepPc.isQueued]) (fun _ => Iff.rfl) h.ready
    · cases hs
  case write timed =>
    cases hs
    have hcontrol := hc.runThread haway hsleeper hidle (.yield true) .sleeping
      (s.sleepLock s.runningThread) (by simp) (by simp [SleepPc.prepared]) (by simp)
      (fun _ hr => hc.locked hbefore hr (by simp [hpc, SleepPc.locked]))
      (by simp [SleepPc.unlocked]) (fun w hr hw => hc.wakers w _ hr hw)
    rw [Function.update_eq_self] at hcontrol
    have hsleeping := h.writeSleeping haway (by simp [hpc]) (by simp [hpc, SleepPc.isQueued])
    exact h.runThread hcontrol (by simp [hpc, SleepPc.isQueued]) hsleeping.1 hsleeping.2
  case reaper =>
    cases hs
    have hreaper := hc.reaperPc s.runningThread (by simp [hpc, SleepPc.unlocked])
    have hcontrol := hc.runThread haway hsleeper hidle (.yield false) .sleeping
      (s.sleepLock s.runningThread) (by simp) (by simp [SleepPc.prepared]) (by simp)
      (by simp [SleepPc.locked]) (fun _ => hreaper) (fun w hr hw => hc.wakers w _ hr hw)
    rw [Function.update_eq_self] at hcontrol
    have hsleeping := h.writeSleeping haway (by simp [hpc]) (by simp [hpc, SleepPc.isQueued])
    exact h.runThread hcontrol (by simp [hpc, SleepPc.isQueued]) hsleeping.1 hsleeping.2
  case yield locked =>
    have hlocked : (SleepPc.insert locked).locked = true → s.runningThread ≠ s.reaperThread →
        s.sleepLock s.runningThread = some .self := by
      intro hl hr
      refine hc.locked hbefore hr ?_
      cases locked <;> simp_all [SleepPc.locked]
    have hreaper : (SleepPc.insert locked).unlocked = true →
        s.runningThread = s.reaperThread := by
      intro hl
      refine hc.reaperPc _ ?_
      cases locked <;> simp_all [SleepPc.unlocked]
    split at hs
    · rename_i hsl
      have hcontrol := hc.setPc haway hsleeper hidle (.insert locked) (fun _ => hsl)
        (by simp [SleepPc.prepared]) hlocked hreaper
      split at hs <;> cases hs <;>
        exact h.runThread hcontrol (by simp [hpc, SleepPc.isQueued]) (fun _ => Iff.rfl) h.ready
    · rename_i hsl
      cases hs
      have hcontrol := hc.setPc haway hsleeper hidle .out (by simp [SleepPc.asleep])
        (fun hs => absurd hs hsl) (by simp [SleepPc.locked]) (by simp [SleepPc.unlocked])
      exact h.runThread hcontrol (by simp [hpc, SleepPc.isQueued]) (fun _ => Iff.rfl) h.ready
  case insert locked =>
    cases hs
    have hsl := hc.asleep (.inl hbefore) (by simp [hpc, SleepPc.asleep])
    have hcontrol := hc.setPc haway hsleeper hidle (.queued locked) (fun _ => hsl)
      (by simp [SleepPc.prepared])
      (fun hl hr => hc.locked hbefore hr (by cases locked <;> simp_all [SleepPc.locked]))
      (fun hl => hc.reaperPc _ (by cases locked <;> simp_all [SleepPc.unlocked]))
    refine h.move rfl { hcontrol with removing := ?_ } (fun t => ?_) (fun _ => Iff.rfl) h.ready
    · simp [QueueState.setPc, hsleeper, SleeperPc.removing]
    · -- the thread is carried before and in the sleep queue after
      rw [count_places, count_places]
      simp only [QueueState.setPc, Function.update_self, hpc]
      rw [held_of_queued rfl, held_eq (by simp [haway, HandoverPc.putAway]) rfl hidle]
      simp only [List.count_cons, List.count_nil]
      omega

/-- `schedule` moves on without touching the queues. -/
theorem Inv.handover (h : s.Inv) {pc : HandoverPc T} {found : Bool}
    (hcontrol : Control { s with schedule := pc, foundDead := found })
    (hput : pc.putAway = s.schedule.putAway) (hnext : pc.next = s.schedule.next)
    (hinserts : pc.inserts = true → s.status s.runningThread = .ready) :
    Inv { s with schedule := pc, foundDead := found } := by
  refine h.move rfl hcontrol (fun t => ?_) (fun _ => Iff.rfl) fun t ht => ?_
  · rw [count_places, count_places]
    simp only [hnext, held_congr hput rfl]
  · obtain hq | ⟨hi, rfl⟩ | hsl | hn := ht
    · exact h.ready t (.inl hq)
    · exact hinserts hi
    · exact h.ready t (.inr (.inr (.inl hsl)))
    · exact h.ready t (.inr (.inr (.inr (hnext ▸ hn))))

theorem Inv.interrupt (h : s.Inv) (haway : s.schedule = .away) (hsleeper : s.sleeper = .away)
    (hpc : (s.pc s.runningThread).interruptible = true) :
    Inv { s with schedule := .scan } := by
  refine h.handover (h.control.handover hsleeper hpc ?_ ?_ ?_ ?_ ?_ ?_ fun _ => id) ?_ ?_ ?_ <;>
    simp [haway, HandoverPc.beforeUnlock, HandoverPc.rereads, HandoverPc.keepsAwake,
      HandoverPc.handsOver, HandoverPc.putAway, HandoverPc.next, HandoverPc.inserts]

/-- `schedule` takes a thread from the run queue. -/
theorem Inv.scan (h : s.Inv) (hscan : s.schedule = .scan) {t : T} (hs : s.scan t = some s') :
    s'.Inv := by
  have hc := h.control
  have hne : s.schedule ≠ .away := by simp [hscan]
  simp only [QueueState.scan] at hs
  split at hs
  case isFalse => cases hs
  rename_i hmem
  rw [h.ready t (.inl hmem)] at hs
  cases hs
  refine h.move rfl
    (hc.handover (hc.sleeper_away hne) (hc.interrupted hne) ?_ ?_ ?_ ?_ ?_ ?_ fun _ => id) (fun t' => ?_)
    (fun _ => Iff.rfl) fun t' ht' => ?_
  case refine_8 =>
    obtain hq | ⟨hi, -⟩ | hsl | hn := ht'
    · exact h.ready t' (.inl (List.mem_of_mem_erase hq))
    · cases hi
    · exact h.ready t' (.inr (.inr (.inl hsl)))
    · obtain rfl := Option.some.inj hn
      exact h.ready t (.inl hmem)
  case refine_7 =>
    have hheld : held (.check (some t)) (s.pc s.runningThread) s.runningThread s.idleThread =
        held .scan (s.pc s.runningThread) s.runningThread s.idleThread := held_congr rfl rfl
    rw [count_places, count_places]
    simp only [hscan, HandoverPc.next, hheld, Option.toList_none, Option.toList_some,
      List.count_nil, List.count_cons, List.count_erase, beq_iff_eq]
    by_cases ht : t = t'
    · subst ht
      have hpos := List.count_pos_iff.mpr hmem
      simp only [if_true]
      omega
    · simp [ht]
  all_goals
    simp [hscan, HandoverPc.beforeUnlock, HandoverPc.rereads, HandoverPc.keepsAwake,
      HandoverPc.handsOver, HandoverPc.putAway]

/-- The reaper is woken only when `schedule` has decided what to do with the current thread. -/
theorem Inv.wakeReaper (h : s.Inv) (hawake : s.schedule.beforeUnlock = true ∨
    s.schedule.rereads = true → (s.pc s.runningThread).asleep = false) : s.wakeReaper.Inv := by
  unfold QueueState.wakeReaper
  split
  · rename_i hreaper
    refine h.move rfl (h.control.setStatus (by simp) (by simp) fun _ => hawake) (fun t => rfl)
      (fun t => ?_) fun t ht => ?_
    · by_cases htr : t = s.reaperThread
      · simp [QueueState.setStatus, htr, hreaper.2.1]
      · simp [QueueState.setStatus, htr]
    · by_cases htr : t = s.reaperThread
      · simp [QueueState.setStatus, htr]
      · simpa [QueueState.setStatus, htr] using h.ready t ht
  · exact h

theorem wakeReaper_schedule (s : QueueState T W) : s.wakeReaper.schedule = s.schedule := by
  unfold wakeReaper
  split <;> rfl

theorem Inv.check (h : s.Inv) {next : Option T} (hsched : s.schedule = .check next)
    (hs : s.runSchedule = some s') : s'.Inv := by
  have hc := h.control
  have hne : s.schedule ≠ .away := by simp [hsched]
  have hsl := hc.sleeper_away hne
  have hint := hc.interrupted hne
  have hbefore : s.schedule.beforeUnlock = true := by simp [hsched, HandoverPc.beforeUnlock]
  simp only [QueueState.runSchedule, hsched, if_neg (hc.killed _)] at hs
  split at hs
  · -- the idle thread is kept outside the queues
    rename_i hidle
    cases hs
    refine h.move rfl (hc.handover hsl hint ?_ ?_ ?_ ?_ ?_ ?_ fun _ => id) (fun t => ?_)
      (fun _ => Iff.rfl) fun t ht => ?_
    case refine_8 =>
      refine h.ready t (ht.imp_right fun ht => .inr ?_)
      simpa [hsched, HandoverPc.inserts, HandoverPc.next] using ht
    case refine_6 =>
      intro _ ha
      rw [hidle, hc.idlePc] at ha
      cases ha
    case refine_7 =>
      rw [count_places, count_places]
      simp only [hsched, hidle, held_of_idle, HandoverPc.next]
    all_goals simp [HandoverPc.beforeUnlock, HandoverPc.rereads, HandoverPc.keepsAwake,
      HandoverPc.handsOver]
  rename_i hidle
  have hmove : ∀ pc : HandoverPc T, pc.putAway = false → pc.inserts = false → pc.next = next →
      (∀ next, pc = .unlock next → s.runningThread ≠ s.reaperThread →
        s.pc s.runningThread = .queued true) →
      (pc.keepsAwake = true → (s.pc s.runningThread).asleep = false) →
      Inv { s with schedule := pc } := by
    intro pc hput hins hnext hunlock hkeeps
    refine h.handover (hc.handover hsl hint (fun _ => hbefore) (fun _ => .inl hbefore) hunlock hkeeps
      (fun _ => hidle) (by simp [hput]) fun _ => id) ?_ ?_ (by simp [hins])
    · rw [hput, hsched]
      rfl
    · rw [hnext, hsched]
      rfl
  split at hs
  · rename_i hstay
    cases hs
    refine hmove .stay rfl rfl (by simp [HandoverPc.next, hstay.1]) (by simp) fun _ => ?_
    by_contra ha
    have hsleeping := hc.asleep (.inl hbefore) (by simpa using ha)
    rw [hstay.2] at hsleeping
    cases hsleeping
  split at hs
  · rename_i hsleeping
    cases hs
    refine hmove (.unlock next) rfl rfl rfl (fun _ _ hr => ?_) (by simp [HandoverPc.keepsAwake])
    have hprepared := hc.awake hbefore hsleeping
    have hopen := fun hu => hr (hc.reaperPc s.runningThread hu)
    -- interrupts are off before the thread is queued, unless it is the reaper
    cases hpc : s.pc s.runningThread with
    | out | lock | write | reaper => simp [hpc, SleepPc.prepared] at hprepared
    | yield locked | insert locked =>
        cases locked
        · simp [hpc, SleepPc.unlocked] at hopen
        · simp [hpc, SleepPc.interruptible] at hint
    | queued locked =>
        cases locked
        · simp [hpc, SleepPc.unlocked] at hopen
        · rfl
  · cases hs
    exact hmove (.reread next) rfl rfl rfl (by simp) (by simp [HandoverPc.keepsAwake])

/-- The lock that `schedule` releases is the current thread's own, unless it is the reaper's. -/
theorem Inv.unlock (h : s.Inv) {next : Option T} (hsched : s.schedule = .unlock next) :
    Inv { s.setLock s.runningThread none with schedule := .reread next } := by
  have hc := h.control
  have hne : s.schedule ≠ .away := by simp [hsched]
  have hbefore : s.schedule.beforeUnlock = true := by simp [hsched, HandoverPc.beforeUnlock]
  have hreread : Inv { s with schedule := .reread next } := by
    refine h.handover (hc.handover (hc.sleeper_away hne) (hc.interrupted hne) (fun _ => hbefore)
      (fun _ => .inl hbefore) (by simp) (by simp [HandoverPc.keepsAwake])
      (fun _ => hc.handsOver (by simp [hsched, HandoverPc.handsOver]))
      (by simp [HandoverPc.putAway]) fun _ => id) ?_ ?_ ?_
    · simp [hsched, HandoverPc.putAway]
    · simp [hsched, HandoverPc.next]
    · simp [HandoverPc.inserts]
  have hcontrol := hreread.control.setLock s.runningThread none
    (by simp [HandoverPc.beforeUnlock]) fun w hr hw => ?_
  · exact hreread.move rfl hcontrol (fun _ => rfl) (fun _ => Iff.rfl) hreread.ready
  · have hlock := hc.locked hbefore hr (by simp [hc.unlock next hsched hr, SleepPc.locked])
    rw [hc.wakers w _ hr hw] at hlock
    cases hlock

theorem Inv.reread (h : s.Inv) {next : Option T} (hsched : s.schedule = .reread next)
    (hs : s.runSchedule = some s') : s'.Inv := by
  have hc := h.control
  have hne : s.schedule ≠ .away := by simp [hsched]
  have hsl := hc.sleeper_away hne
  have hint := hc.interrupted hne
  have hidle := hc.handsOver (by simp [hsched, HandoverPc.handsOver])
  have hready : ∀ lost t, Readied { s with schedule := .reap next, lost := lost } t →
      s.status t = .ready := by
    intro lost t ht
    refine h.ready t (ht.imp_right fun ht => .inr ?_)
    simpa [hsched, HandoverPc.inserts, HandoverPc.next] using ht
  simp only [QueueState.runSchedule, hsched] at hs
  split at hs
  · rename_i hawake
    cases hs
    refine h.handover (hc.handover hsl hint ?_ ?_ ?_ ?_ (fun _ => hidle) ?_ fun _ => id) ?_ ?_ ?_
    case refine_4 =>
      intro _
      by_contra ha
      exact hawake (hc.asleep (.inr (by simp [hsched, HandoverPc.rereads])) (by simpa using ha))
    all_goals simp [hsched, HandoverPc.beforeUnlock, HandoverPc.rereads, HandoverPc.putAway,
      HandoverPc.next, HandoverPc.inserts]
  split at hs
  · rename_i hqueued
    cases hs
    refine h.move rfl (hc.handover hsl hint ?_ ?_ ?_ ?_ ?_ (fun _ _ => .inl hqueued) fun _ => id)
      (fun t => ?_) (fun _ => Iff.rfl) (hready s.lost)
    case refine_6 =>
      rw [count_places, count_places]
      simp only [hsched, held_of_queued hqueued, HandoverPc.next]
    all_goals simp [HandoverPc.beforeUnlock, HandoverPc.rereads, HandoverPc.keepsAwake,
      HandoverPc.handsOver]
  · rename_i hqueued
    cases hs
    refine h.move rfl
      (hc.handover hsl hint ?_ ?_ ?_ ?_ ?_ (fun _ _ => .inr (by simp)) (by simp_all))
      (fun t => ?_) (fun _ => Iff.rfl) (hready _)
    case refine_6 =>
      rw [count_places, count_places]
      simp only [hsched, HandoverPc.next]
      rw [held_of_putAway rfl, held_eq rfl (by simpa using hqueued) hidle]
      simp only [List.count_cons, List.count_nil]
      omega
    all_goals simp [HandoverPc.beforeUnlock, HandoverPc.rereads, HandoverPc.keepsAwake,
      HandoverPc.handsOver]

theorem Inv.enqueue (h : s.Inv) {next : Option T} (hsched : s.schedule = .enqueue next)
    (hs : s.runSchedule = some s') : s'.Inv := by
  have hins : ∀ s₁ : QueueState T W, s₁.Inv → s₁.schedule = .enqueue next →
      s₁.status s₁.runningThread = .ready → Inv { s₁ with schedule := .insert next } := by
    intro s₁ h₁ hsched₁ hstatus
    have hc := h₁.control
    have hne : s₁.schedule ≠ .away := by simp [hsched₁]
    refine h₁.handover (hc.handover (hc.sleeper_away hne) (hc.interrupted hne) ?_ ?_ ?_
      (fun _ => hc.keepsAwake (by simp [hsched₁, HandoverPc.keepsAwake]))
      (fun _ => hc.handsOver (by simp [hsched₁, HandoverPc.handsOver])) ?_ fun _ => id)
      ?_ ?_ fun _ => hstatus
    all_goals simp [hsched₁, HandoverPc.beforeUnlock, HandoverPc.rereads, HandoverPc.putAway,
      HandoverPc.next]
  simp only [QueueState.runSchedule, hsched] at hs
  split at hs
  · cases hs
  · cases hs
  · cases hs
  · rename_i hrunning
    cases hs
    refine hins (s.setStatus s.runningThread .ready) ?_ hsched (by simp [QueueState.setStatus])
    refine h.move rfl (h.control.setStatus (by simp) (by simp) ?_) (fun _ => rfl) (fun t => ?_)
      fun t ht => ?_
    · simp [hsched, HandoverPc.beforeUnlock, HandoverPc.rereads]
    · by_cases htr : t = s.runningThread
      · simp [QueueState.setStatus, htr, hrunning]
      · simp [QueueState.setStatus, htr]
    · by_cases htr : t = s.runningThread
      · simp [QueueState.setStatus, htr]
      · simpa [QueueState.setStatus, htr] using h.ready t ht
  · rename_i hready
    cases hs
    exact hins s h hsched hready

theorem Inv.insert (h : s.Inv) {next : Option T} (hsched : s.schedule = .insert next) :
    Inv { s with queue := s.runningThread :: s.queue, schedule := .reap next } := by
  have hc := h.control
  have hne : s.schedule ≠ .away := by simp [hsched]
  have hawake := hc.keepsAwake (by simp [hsched, HandoverPc.keepsAwake])
  have hidle := hc.handsOver (by simp [hsched, HandoverPc.handsOver])
  have hqueued : (s.pc s.runningThread).isQueued = false := by
    cases hpc : s.pc s.runningThread <;> simp_all [SleepPc.asleep, SleepPc.isQueued]
  refine h.move rfl (hc.handover (hc.sleeper_away hne) (hc.interrupted hne) ?_ ?_ ?_ ?_ ?_
    (by simp [hawake]) fun _ => id) (fun t => ?_) (fun _ => Iff.rfl) fun t ht => ?_
  case refine_6 =>
    rw [count_places, count_places]
    simp only [hsched, HandoverPc.next]
    rw [held_of_putAway rfl, held_eq rfl hqueued hidle]
    simp only [List.count_cons, List.count_nil]
    omega
  case refine_7 =>
    obtain hq | ⟨hi, -⟩ | hsl | hn := ht
    · obtain rfl | hq := List.mem_cons.mp hq
      · exact h.ready _ (.inr (.inl ⟨by simp [hsched, HandoverPc.inserts], rfl⟩))
      · exact h.ready t (.inl hq)
    · cases hi
    · exact h.ready t (.inr (.inr (.inl hsl)))
    · exact h.ready t (.inr (.inr (.inr (hsched ▸ hn))))
  all_goals simp [HandoverPc.beforeUnlock, HandoverPc.rereads, HandoverPc.keepsAwake,
    HandoverPc.handsOver]

theorem Inv.idle_created (h : s.Inv) : s.status s.idleThread ≠ .notReady := by
  intro hnew
  have hcount := h.places s.idleThread
  rw [count_places, if_pos hnew] at hcount
  have hpos : [s.idleThread].count s.idleThread = 1 := by simp
  omega

/-- The thread that is switched to is not on its way to sleep. -/
theorem Inv.next_awake (h : s.Inv) {next : Option T} (hsched : s.schedule = .switch next) :
    ((s.setPc (s.pc s.runningThread).resume).pc (next.getD s.idleThread)).asleep = false := by
  have hc := h.control
  have hlost : next.getD s.idleThread ∉ s.lost ∨ s.pc (next.getD s.idleThread) = .out := by
    cases next with
    | none => exact .inr hc.idlePc
    | some t => exact .inl (h.not_mem_of_next (by simp [hsched, HandoverPc.next])).2.1
  by_contra ha
  rw [Bool.not_eq_false] at ha
  by_cases hcur : next.getD s.idleThread = s.runningThread
  · rw [hcur] at hlost ha
    simp only [QueueState.setPc, Function.update_self] at ha
    cases hpc : s.pc s.runningThread with
    | insert locked =>
        obtain hl | hl := hlost
        · obtain hq | hm := hc.putAway (by simp [hsched, HandoverPc.putAway])
            (by simp [hpc, SleepPc.asleep])
          · simp [hpc, SleepPc.isQueued] at hq
          · exact hl hm
        · simp [hpc] at hl
    | out | lock | write | reaper | yield | queued => simp [hpc, SleepPc.resume, SleepPc.asleep] at ha
  · simp only [QueueState.setPc, Function.update_of_ne hcur] at ha
    obtain hl | hl := hlost
    · exact hl (hc.lost _ hcur ha)
    · simp [hl, SleepPc.asleep] at ha

/-- The control points after a switch; `status` is the status of the threads after it. -/
theorem Inv.control_switch (h : s.Inv) {next : Option T} (hsched : s.schedule = .switch next)
    {status : T → Status} (hnext : status (next.getD s.idleThread) ≠ .sleeping)
    (hidle : status s.idleThread ≠ .sleeping) (hkilled : ∀ t, status t ≠ .killed) :
    Control { s.setPc (s.pc s.runningThread).resume with
      status := status, schedule := .away, runningThread := next.getD s.idleThread } := by
  have hc := h.control
  have hne : s.schedule ≠ .away := by simp [hsched]
  have hint := hc.interrupted hne
  have hawake := h.next_awake hsched
  have hpc : ∀ t, t ≠ s.runningThread →
      (s.setPc (s.pc s.runningThread).resume).pc t = s.pc t := by
    intro t ht
    simp [QueueState.setPc, ht]
  have hcur : (s.setPc (s.pc s.runningThread).resume).pc s.runningThread =
      (s.pc s.runningThread).resume := by simp [QueueState.setPc]
  -- only the reaper is interrupted anywhere but outside the calls and in the sleep queue
  have hout : s.runningThread ≠ s.reaperThread → (s.pc s.runningThread).resume = .out := by
    intro hr
    have hopen := fun hu => hr (hc.reaperPc s.runningThread hu)
    cases hp : s.pc s.runningThread with
    | out | queued => rfl
    | lock | write => simp [hp, SleepPc.interruptible] at hint
    | reaper => simp [hp, SleepPc.unlocked] at hopen
    | yield locked | insert locked =>
        cases locked
        · simp [hp, SleepPc.unlocked] at hopen
        · simp [hp, SleepPc.interruptible] at hint
  have hparked : ∀ t, t ≠ s.reaperThread →
      (s.setPc (s.pc s.runningThread).resume).pc t = .out := by
    intro t hr
    by_cases ht : t = s.runningThread
    · subst ht
      rw [hcur, hout hr]
    · rw [hpc t ht, hc.parked t ht hr]
  constructor
  case asleep => exact fun _ ha => absurd ha (by simpa using hawake)
  case awake => exact fun _ hs => absurd hs hnext
  case locked =>
    intro _ hr hl
    simp only [hparked _ hr, SleepPc.locked] at hl
    cases hl
  case interrupted => exact fun hne => absurd rfl hne
  case unlock => simp
  case keepsAwake => simp [HandoverPc.keepsAwake]
  case handsOver => simp [HandoverPc.handsOver]
  case putAway => simp [HandoverPc.putAway]
  case reaperPc =>
    intro t hu
    by_contra hr
    simp only [hparked t hr, SleepPc.unlocked] at hu
    cases hu
  case parked => exact fun t _ hr => hparked t hr
  case lost =>
    intro t _ ha
    by_cases ht : t = s.runningThread
    · subst ht
      simp only [hcur] at ha
      cases hp : s.pc s.runningThread with
      | insert locked =>
          refine (hc.putAway (by simp [hsched, HandoverPc.putAway])
            (by simp [hp, SleepPc.asleep])).resolve_left (by simp [hp, SleepPc.isQueued])
      | out | lock | write | reaper | yield | queued =>
          simp [hp, SleepPc.resume, SleepPc.asleep] at ha
    · simp only [hpc t ht] at ha
      exact hc.lost t ht ha
  case idlePc =>
    by_cases ht : s.idleThread = s.runningThread
    · have hidlePc := hc.idlePc
      rw [ht] at hidlePc
      simp [QueueState.setPc, ht, hidlePc, SleepPc.resume]
    · simpa [QueueState.setPc, ht] using hc.idlePc
  case idle => exact hidle
  case killed => exact hkilled
  case sleeper => exact fun hsl => absurd (hc.sleeper_away hne) hsl
  case removing => exact hc.removing
  case wakers => exact hc.wakers

theorem Inv.switch (h : s.Inv) {next : Option T} (hsched : s.schedule = .switch next)
    {status : T → Status} (hnext : status (next.getD s.idleThread) ≠ .sleeping)
    (hstatus : ∀ t, t ≠ next.getD s.idleThread → status t = s.status t)
    (hfresh : ∀ t, status t = .notReady ↔ s.status t = .notReady)
    (hkilled : ∀ t, status t ≠ .killed) :
    Inv { s.setPc (s.pc s.runningThread).resume with
      status := status, schedule := .away, runningThread := next.getD s.idleThread } := by
  have hidle : status s.idleThread ≠ .sleeping := by
    by_cases hi : s.idleThread = next.getD s.idleThread
    · rwa [hi]
    · rw [hstatus _ hi]
      exact h.control.idle
  have hawake := h.next_awake hsched
  refine h.move rfl (h.control_switch hsched hnext hidle hkilled) (fun t => ?_) hfresh
    fun t ht => ?_
  · -- the next thread is carried before and running after
    have hput : held s.schedule (s.pc s.runningThread) s.runningThread s.idleThread = [] :=
      held_of_putAway (by simp [hsched, HandoverPc.putAway])
    rw [count_places, count_places, hput, hsched]
    cases next with
    | none =>
        simp only [QueueState.setPc, HandoverPc.next, Option.getD_none, held_of_idle]
    | some n =>
        have hn := (h.not_mem_of_next (t := n) (by simp [hsched, HandoverPc.next])).2.2
        have hq : ((s.setPc (s.pc s.runningThread).resume).pc n).isQueued = false := by
          cases hp : (s.setPc (s.pc s.runningThread).resume).pc n with
          | queued => simp [hp, SleepPc.asleep] at hawake
          | _ => rfl
        have hheld : held .away ((s.setPc (s.pc s.runningThread).resume).pc n) n s.idleThread =
            [n] := held_eq rfl hq hn
        simp only [QueueState.setPc] at hheld
        simp only [QueueState.setPc, HandoverPc.next, Option.getD_some, hheld, Option.toList_none,
          Option.toList_some, List.count_nil]
        omega
  · have hsl := h.control.sleeper_away (by simp [hsched])
    obtain hq | ⟨hi, -⟩ | hr | hn := ht
    · have hne : t ≠ next.getD s.idleThread := by
        rintro rfl
        cases next with
        | none => exact h.idle_not_mem hq
        | some n => exact (h.not_mem_of_next (by simp [hsched, HandoverPc.next])).1 hq
      exact (hstatus t hne).trans (h.ready t (.inl hq))
    · cases hi
    · simp [QueueState.setPc, hsl, SleeperPc.readied] at hr
    · cases hn

theorem Inv.runSwitch (h : s.Inv) {next : Option T} (hsched : s.schedule = .switch next)
    (hs : s.runSchedule = some s') : s'.Inv := by
  -- the next thread is ready, or it is the idle one
  have hnext : s.status (next.getD s.idleThread) ≠ .sleeping ∧
      s.status (next.getD s.idleThread) ≠ .notReady := by
    cases next with
    | none => exact ⟨h.control.idle, h.idle_created⟩
    | some n =>
        have hready := h.ready n (.inr (.inr (.inr (by simp [hsched, HandoverPc.next]))))
        simp [hready]
  simp only [QueueState.runSchedule, hsched] at hs
  split at hs
  · rename_i hcur
    cases hs
    have hinv := h.switch hsched hnext.1 (fun _ _ => rfl) (fun _ => Iff.rfl) h.control.killed
    rw [hcur] at hinv
    exact hinv
  · cases hs
    refine h.switch hsched ?_ (fun t ht => ?_) (fun t => ?_) (fun t => ?_)
    · simp [QueueState.setStatus]
    · simp [QueueState.setStatus, QueueState.setPc, ht]
    all_goals
      by_cases ht : t = next.getD s.idleThread
      · simp [ht, QueueState.setStatus, hnext.2]
      · simp [ht, QueueState.setStatus, QueueState.setPc, h.control.killed]

theorem Inv.runSchedule (h : s.Inv) (hs : s.runSchedule = some s') : s'.Inv := by
  cases hsched : s.schedule with
  | away => simp [QueueState.runSchedule, hsched] at hs
  | scan =>
      have hc := h.control
      have hne : s.schedule ≠ .away := by simp [hsched]
      simp only [QueueState.runSchedule, hsched] at hs
      split at hs
      · cases hs
        refine h.handover (hc.handover (hc.sleeper_away hne) (hc.interrupted hne) ?_ ?_ ?_ ?_ ?_ ?_
          fun _ => id) ?_ ?_ ?_
        all_goals simp [hsched, HandoverPc.beforeUnlock, HandoverPc.rereads,
          HandoverPc.keepsAwake, HandoverPc.handsOver, HandoverPc.putAway, HandoverPc.next,
          HandoverPc.inserts]
      · cases hs
  | check next => exact h.check hsched hs
  | unlock next =>
      simp only [QueueState.runSchedule, hsched, Option.some.injEq] at hs
      exact hs ▸ h.unlock hsched
  | reread next => exact h.reread hsched hs
  | enqueue next => exact h.enqueue hsched hs
  | insert next =>
      simp only [QueueState.runSchedule, hsched, Option.some.injEq] at hs
      exact hs ▸ h.insert hsched
  | stay =>
      simp only [QueueState.runSchedule, hsched, Option.some.injEq] at hs
      subst hs
      have hawake := h.control.keepsAwake (by simp [hsched, HandoverPc.keepsAwake])
      have h' := h.wakeReaper fun _ => hawake
      have hsched' := (wakeReaper_schedule s).trans hsched
      have hne : s.wakeReaper.schedule ≠ .away := by simp [hsched']
      refine h'.handover (h'.control.handover (h'.control.sleeper_away hne)
        (h'.control.interrupted hne) ?_ ?_ ?_ ?_ ?_ ?_ fun _ => id) ?_ ?_ ?_
      all_goals simp [hsched', HandoverPc.beforeUnlock, HandoverPc.rereads,
        HandoverPc.keepsAwake, HandoverPc.handsOver, HandoverPc.putAway, HandoverPc.next,
        HandoverPc.inserts]
  | reap next =>
      simp only [QueueState.runSchedule, hsched, Option.some.injEq] at hs
      subst hs
      have h' := h.wakeReaper (by simp [hsched, HandoverPc.beforeUnlock, HandoverPc.rereads])
      have hsched' := (wakeReaper_schedule s).trans hsched
      have hne : s.wakeReaper.schedule ≠ .away := by simp [hsched']
      refine h'.handover (h'.control.handover (h'.control.sleeper_away hne)
        (h'.control.interrupted hne) ?_ ?_ ?_ ?_ ?_
        (fun _ => h'.control.putAway (by simp [hsched', HandoverPc.putAway])) fun _ => id) ?_ ?_ ?_
      all_goals simp [hsched', HandoverPc.beforeUnlock, HandoverPc.rereads,
        HandoverPc.keepsAwake, HandoverPc.handsOver, HandoverPc.putAway, HandoverPc.next,
        HandoverPc.inserts]
  | switch next => exact h.runSwitch hsched hs

/-- A thread that has been made ready is ready. -/
theorem Inv.setReady (h : s.Inv) {t : T} (hnew : s.status t ≠ .notReady)
    (hcurrent : t = s.runningThread →
      s.schedule.beforeUnlock = true ∨ s.schedule.rereads = true →
      (s.pc s.runningThread).asleep = false) : Inv (s.setStatus t .ready) := by
  refine h.move rfl (h.control.setStatus (by simp) (by simp) hcurrent) (fun _ => rfl) (fun t' => ?_)
    fun t' ht' => ?_
  · by_cases ht : t' = t
    · simp [QueueState.setStatus, ht, hnew]
    · simp [QueueState.setStatus, ht]
  · by_cases ht : t' = t
    · simp [QueueState.setStatus, ht]
    · simpa [QueueState.setStatus, ht] using h.ready t' ht'

/-- The sleeper goes on; it moves threads between the queues. -/
theorem Inv.sleeperMoves (h : s.Inv) (haway : s.schedule = .away)
    (hout : s.pc s.runningThread = .out) {pc : SleeperPc T} {queue sleepQueue dead : List T}
    (hcount : ∀ t, queue.count t + sleepQueue.count t + dead.count t + pc.carried.toList.count t =
      s.queue.count t + s.sleepQueue.count t + s.deadThreads.count t +
        s.sleeper.carried.toList.count t)
    (hremoving : ∀ t, pc.removing = some t → t ∈ sleepQueue)
    (hready : ∀ t, t ∈ queue ∨ pc.readied = some t → s.status t = .ready) :
    Inv { s with
      sleeper := pc, queue := queue, sleepQueue := sleepQueue, deadThreads := dead } := by
  refine h.move rfl { h.control with sleeper := fun _ => ⟨haway, hout⟩, removing := hremoving }
    (fun t => ?_) (fun _ => Iff.rfl) fun t ht => ?_
  · rw [count_places, count_places]
    have := hcount t
    dsimp only
    omega
  · obtain hq | ⟨hi, -⟩ | hr | hn := ht
    · exact hready t (.inl hq)
    · simp [haway, HandoverPc.inserts] at hi
    · exact hready t (.inr hr)
    · simp [haway, HandoverPc.next] at hn

theorem Inv.examine (h : s.Inv) {t : T} {expired : Bool} (hs : s.examine t expired = some s') :
    s'.Inv := by
  simp only [QueueState.examine] at hs
  split at hs
  case isFalse => cases hs
  rename_i hloop
  obtain ⟨haway, hout⟩ := h.control.sleeper (by simp [hloop.1])
  have hmove : ∀ pc : SleeperPc T, pc.carried = none → pc.removing = some t →
      (∀ t', pc.readied = some t' → s.status t' = .ready) → Inv { s with sleeper := pc } := by
    intro pc hcarried hremoving hreadied
    refine h.sleeperMoves haway hout (fun t' => ?_) (fun t' ht' => ?_) fun t' ht' => ?_
    · simp only [hcarried, hloop.1]
      rfl
    · obtain rfl := Option.some.inj (hremoving.symm.trans ht')
      exact hloop.2
    · exact ht'.elim (fun hq => h.ready t' (.inl hq)) (hreadied t')
  split at hs
  · split at hs
    · cases hs
      exact hmove (.expired t) rfl rfl (by simp [SleeperPc.readied])
    · cases hs
      exact h
  · split at hs
    · rename_i hready
      cases hs
      exact hmove (.woken t) rfl rfl (by simpa [SleeperPc.readied] using hready)
    · cases hs
      exact hmove (.killed t) rfl rfl (by simp [SleeperPc.readied])
    · cases hs
      exact h
    · cases hs
      exact h
    · cases hs

theorem Inv.runSleeper (h : s.Inv) (hs : s.runSleeper = some s') : s'.Inv := by
  have hc := h.control
  simp only [QueueState.runSleeper] at hs
  cases hsl : s.sleeper <;> simp only [hsl] at hs
  case away | loop => cases hs
  all_goals
    rename_i t
    obtain ⟨haway, hout⟩ := hc.sleeper (by simp [hsl])
  case expired | woken | killed =>
    have hmem := hc.removing t (by simp [hsl, SleeperPc.removing])
    have herase : ∀ t', (s.sleepQueue.erase t).count t' + [t].count t' = s.sleepQueue.count t' := by
      intro t'
      rw [List.count_erase, List.count_singleton]
      by_cases ht : t = t'
      · subst ht
        have hpos := List.count_pos_iff.mpr hmem
        simp only [beq_self_eq_true, if_true]
        omega
      · simp [ht]
    cases hs
    refine h.sleeperMoves haway hout (fun t' => ?_) (by simp [SleeperPc.removing]) fun t' ht' => ?_
    · have := herase t'
      simp only [hsl, SleeperPc.carried, Option.toList_none, Option.toList_some, List.count_nil,
        List.count_append]
      omega
    · refine h.ready t' (ht'.imp_right fun hr => .inr (.inl ?_))
      rw [hsl]
      exact hr
  case write =>
    cases hs
    have hnew : s.status t ≠ .notReady := by
      intro hnew
      have hcount := h.places t
      rw [count_places, if_pos hnew] at hcount
      simp [hsl, SleeperPc.carried] at hcount
    have h' := h.setReady (t := t) hnew fun _ _ => by simp [hout, SleepPc.asleep]
    have hmoved : Inv { s.setStatus t .ready with sleeper := .insert t } := by
      refine h'.sleeperMoves haway hout (fun t' => ?_) (by simp [SleeperPc.removing])
        fun t' ht' => ?_
      · simp only [QueueState.setStatus, hsl, SleeperPc.carried]
      · obtain hq | hr := ht'
        · exact h'.ready t' (.inl hq)
        · obtain rfl : t = t' := by simpa [SleeperPc.readied] using hr
          simp [QueueState.setStatus]
    exact hmoved.move rfl { hmoved.control with } (fun _ => rfl) (fun _ => Iff.rfl) hmoved.ready
  case insert =>
    cases hs
    refine h.sleeperMoves haway hout (fun t' => ?_) (by simp [SleeperPc.removing]) fun t' ht' => ?_
    · simp only [hsl, SleeperPc.carried, Option.toList_none, Option.toList_some, List.count_nil,
        List.count_cons]
      omega
    · have hready := h.ready t (.inr (.inr (.inl (by simp [hsl, SleeperPc.readied]))))
      obtain hq | hr := ht'
      · obtain rfl | hq := List.mem_cons.mp hq
        · exact hready
        · exact h.ready t' (.inl hq)
      · simp [SleeperPc.readied] at hr

variable [DecidableEq W]

theorem Inv.setWaker (h : s.Inv) {w : W} {pc : WakerPc T}
    (hpc : ∀ t, t ≠ s.reaperThread → pc.locked = some t → s.sleepLock t = some (.waker w))
    (hwrite : ∀ t, pc = .write t → s.status t ≠ .notReady) : Inv (s.setWaker w pc) := by
  refine ⟨h.control.setWaker hpc, h.places, h.ready, fun w' t ht => ?_⟩
  by_cases hw : w' = w
  · subst hw
    exact hwrite t (by simpa [QueueState.setWaker] using ht)
  · exact h.created w' t (by simpa [QueueState.setWaker, hw] using ht)

/-- The steps that `wake_up` may take: it does not write the status of the running thread once that
has decided to insert itself into the sleep queue, neither between `sleep_lock.unlock` and the second
read of the status in `schedule`, nor, for the reaper, at any time before that read. -/
def wakesInOrder (s : QueueState T W) : QueueStep T W → Bool
  | .waker w =>
      match s.wakers w with
      | .write t => !(t = s.runningThread && (s.pc t).asleep &&
          (s.schedule.rereads || t = s.reaperThread && s.schedule.beforeUnlock))
      | _ => true
  | _ => true

theorem Inv.runWaker (h : s.Inv) {w : W} (horder : s.wakesInOrder (.waker w) = true)
    (hs : s.runWaker w = some s') : s'.Inv := by
  have hc := h.control
  simp only [QueueState.runWaker] at hs
  cases hpc : s.wakers w <;> simp only [hpc] at hs
  case out => cases hs
  case lock t =>
    split at hs
    · rename_i hfree
      cases hs
      have hcontrol : Control (s.setLock t (some (.waker w))) := by
        refine hc.setLock t _ (fun ht hb hr hl => ?_) fun w' hr hw' => ?_
        · subst ht
          exact absurd (hfree.symm.trans (hc.locked hb hr hl)) (by simp)
        · exact absurd (hfree.symm.trans (hc.wakers w' t hr hw')) (by simp)
      have hlocked : Inv (s.setLock t (some (.waker w))) :=
        h.move rfl hcontrol (fun _ => rfl) (fun _ => Iff.rfl) h.ready
      refine hlocked.setWaker (fun t' _ ht' => ?_) (by simp)
      obtain rfl : t = t' := by simpa [WakerPc.locked] using ht'
      simp [QueueState.setLock]
    · cases hs
  case check t =>
    have hlock := fun hr => hc.wakers w t hr (by simp [hpc, WakerPc.locked])
    split at hs
    · cases hs
      refine h.setWaker (fun t' hr ht' => ?_) (by simp)
      obtain rfl : t = t' := by simpa [WakerPc.locked] using ht'
      exact hlock hr
    · rename_i hsleeping
      cases hs
      refine h.setWaker (fun t' hr ht' => ?_) fun t' ht' => ?_
      · obtain rfl : t = t' := by simpa [WakerPc.locked] using ht'
        exact hlock hr
      · obtain rfl : t = t' := by simpa using ht'
        rw [not_not.mp hsleeping]
        simp
  case write t =>
    cases hs
    have hlock := fun hr => hc.wakers w t hr (by simp [hpc, WakerPc.locked])
    have hwaker : Inv (s.setWaker w (.unlock t)) := by
      refine h.setWaker (fun t' hr ht' => ?_) (by simp)
      obtain rfl : t = t' := by simpa [WakerPc.locked] using ht'
      exact hlock hr
    refine hwaker.setReady (h.created w t hpc) fun ht hu => ?_
    change t = s.runningThread at ht
    change s.schedule.beforeUnlock = true ∨ s.schedule.rereads = true at hu
    change (s.pc s.runningThread).asleep = false
    by_contra ha
    rw [Bool.not_eq_false] at ha
    subst ht
    simp only [wakesInOrder, hpc, ha, decide_true, Bool.true_and, Bool.not_eq_true',
      Bool.or_eq_false_iff, Bool.and_eq_false_iff, decide_eq_false_iff_not] at horder
    obtain ⟨hrereads, hreaper⟩ := horder
    have hbefore := hu.resolve_right (by simp [hrereads])
    have hr := hreaper.resolve_right (by simp [hbefore])
    -- before the lock is released, the thread itself holds it
    have hlocked : (s.pc s.runningThread).locked = true := by
      have hopen := fun hu => hr (hc.reaperPc s.runningThread hu)
      cases hp : s.pc s.runningThread with
      | insert locked | queued locked =>
          cases locked
          · simp [hp, SleepPc.unlocked] at hopen
          · rfl
      | out | lock | write | reaper | yield => simp [hp, SleepPc.asleep] at ha
    exact absurd ((hlock hr).symm.trans (hc.locked hbefore hr hlocked)) (by simp)
  case unlock t =>
    cases hs
    have hlock := fun hr => hc.wakers w t hr (by simp [hpc, WakerPc.locked])
    have hwaker : Inv (s.setWaker w .out) := h.setWaker (by simp [WakerPc.locked]) (by simp)
    refine hwaker.move rfl
      (hwaker.control.setLock t none (fun ht hb hr hl => ?_) fun w' hr hw' => ?_)
      (fun _ => rfl) (fun _ => Iff.rfl) hwaker.ready
    · subst ht
      exact absurd ((hlock hr).symm.trans (hc.locked hb hr hl)) (by simp)
    · by_cases hw : w' = w
      · subst hw
        simp [QueueState.setWaker, WakerPc.locked] at hw'
      · have hw₂ := hc.wakers w' t hr (by simpa [QueueState.setWaker, hw] using hw')
        exact absurd ((hlock hr).symm.trans hw₂) (by simpa using Ne.symm hw)

theorem Inv.step (h : s.Inv) {e : QueueStep T W} (horder : s.wakesInOrder e = true)
    (hs : s.step e = some s') : s'.Inv := by
  have hc := h.control
  cases e with
  | spawn t => exact h.spawn hs
  | prepareSleep timed =>
      simp only [QueueState.step] at hs
      split at hs
      · rename_i hidles
        obtain ⟨haway, hsl, hidle, hout⟩ := hidles
        cases hs
        have hbefore : s.schedule.beforeUnlock = true := by simp [haway, HandoverPc.beforeUnlock]
        have hcontrol := hc.setPc haway hsl hidle (.lock timed) (by simp [SleepPc.asleep])
          (fun hs => by simpa [hout, SleepPc.prepared] using hc.awake hbefore hs)
          (by simp [SleepPc.locked]) (by simp [SleepPc.unlocked])
        exact h.runThread hcontrol (by simp [hout, SleepPc.isQueued]) (fun _ => Iff.rfl) h.ready
      · cases hs
  | reaper =>
      simp only [QueueState.step] at hs
      split at hs
      · rename_i hreaper
        obtain ⟨⟨haway, hsl, hidle, hout⟩, hreaper, -⟩ := hreaper
        cases hs
        have hbefore : s.schedule.beforeUnlock = true := by simp [haway, HandoverPc.beforeUnlock]
        have hcontrol := hc.setPc haway hsl hidle .reaper (by simp [SleepPc.asleep])
          (fun hs => by simpa [hout, SleepPc.prepared] using hc.awake hbefore hs)
          (by simp [SleepPc.locked]) (fun _ => hreaper)
        exact h.runThread hcontrol (by simp [hout, SleepPc.isQueued]) (fun _ => Iff.rfl) h.ready
      · cases hs
  | run =>
      simp only [QueueState.step] at hs
      split at hs
      · exact h.run ‹_› hs
      · cases hs
  | interrupt =>
      simp only [QueueState.step] at hs
      split at hs
      · rename_i hint
        cases hs
        exact h.interrupt hint.1 hint.2.1 hint.2.2
      · cases hs
  | scan t =>
      simp only [QueueState.step] at hs
      split at hs
      · exact h.scan ‹_› hs
      · cases hs
  | schedule => exact h.runSchedule hs
  | enterSleeper =>
      simp only [QueueState.step] at hs
      split at hs
      · rename_i henter
        obtain ⟨⟨haway, hsl, -, hout⟩, -⟩ := henter
        cases hs
        refine h.sleeperMoves haway hout (fun t => ?_) (by simp [SleeperPc.removing]) fun t ht => ?_
        · simp only [hsl, SleeperPc.carried]
        · exact h.ready t (.inl (ht.resolve_right (by simp [SleeperPc.readied])))
      · cases hs
  | examine t expired => exact h.examine hs
  | sleeper => exact h.runSleeper hs
  | leaveSleeper =>
      simp only [QueueState.step] at hs
      split at hs
      · rename_i hsl
        obtain ⟨haway, hout⟩ := hc.sleeper (by simp [hsl])
        cases hs
        refine h.sleeperMoves haway hout (fun t => ?_) (by simp [SleeperPc.removing]) fun t ht => ?_
        · simp only [hsl, SleeperPc.carried]
        · exact h.ready t (.inl (ht.resolve_right (by simp [SleeperPc.readied])))
      · cases hs
  | wakeUp w t =>
      simp only [QueueState.step] at hs
      split at hs
      · cases hs
        exact h.setWaker (by simp [WakerPc.locked]) (by simp)
      · cases hs
  | waker w => exact h.runWaker horder hs

theorem Inv.init (h : (queueSystem T W).init s) : s.Inv := by
  obtain ⟨hq, hsq, hdead, hlost, hrun, hidle, hnew, hlock, hpc, hsched, hsl, hwakers⟩ := h
  refine ⟨?_, fun t => ?_, fun t ht => ?_, fun w t hw => ?_⟩
  · constructor
    case idle => simp [hidle]
    case killed =>
      intro t
      by_cases ht : t = s.idleThread
      · simp [ht, hidle]
      · simp [hnew t ht]
    case awake => simp [hrun, hidle]
    case lost => simp [hpc, SleepPc.asleep]
    case removing => simp [hsl, SleeperPc.removing]
    case wakers => simp [hwakers, WakerPc.locked]
    all_goals simp [hpc, hsched, hsl, SleepPc.asleep, SleepPc.locked, SleepPc.unlocked,
      HandoverPc.keepsAwake, HandoverPc.handsOver, HandoverPc.putAway]
  · rw [count_places, hq, hsq, hdead, hlost, hsched, hsl, hrun, held_of_idle]
    by_cases ht : t = s.idleThread
    · subst ht
      simp [hidle, HandoverPc.next, SleeperPc.carried]
    · simp [hnew t ht, Ne.symm ht, HandoverPc.next, SleeperPc.carried]
  · obtain hm | ⟨hi, -⟩ | hr | hn := ht
    · simp [hq] at hm
    · simp [hsched, HandoverPc.inserts] at hi
    · simp [hsl, SleeperPc.readied] at hr
    · simp [hsched, HandoverPc.next] at hn
  · simp [hwakers] at hw

theorem Inv.of_reachable
    (h : ((queueSystem T W).restrict fun s e => s.wakesInOrder e = true).Reachable s) : s.Inv := by
  apply h.invariant
  · intro s hs
    exact Inv.init (T := T) (W := W) hs
  · intro s e s' _ hinv hs
    exact hinv.step hs.1 hs.2

/-- The processor at the end of `start`: thread 0 is the idle thread, 1 the reaper, 2 the sleeper. -/
def boot : QueueState (Fin 4) Unit where
  queue := []
  runningThread := 0
  sleepQueue := []
  idleThread := 0
  reaperThread := 1
  sleeperThread := 2
  deadThreads := []
  status := fun t => if t = 0 then .ready else .notReady
  sleepLock := fun _ => none
  sleepFor := fun _ => false
  sleepUntil := fun _ => false
  pc := fun _ => .out
  schedule := .away
  foundDead := false
  sleeper := .away
  wakers := fun _ => .out
  lost := []

theorem boot_init : (queueSystem (Fin 4) Unit).init boot := by
  refine ⟨rfl, rfl, rfl, rfl, rfl, rfl, fun t ht => ?_, fun _ => rfl, fun _ => rfl, rfl, rfl,
    fun _ => rfl⟩
  simp only [boot] at ht ⊢
  exact if_neg ht

/-- A new thread runs for the first time and goes to sleep, up to the interrupt it has asked for. -/
def goToSleep (t : Fin 4) : List (QueueStep (Fin 4) Unit) :=
  [.spawn t, .interrupt, .scan t, .schedule, .schedule, .schedule, .prepareSleep false, .run, .run,
    .run, .run, .interrupt, .schedule, .schedule, .schedule]

end QueueState

/-- In every run in which `wake_up` keeps out of the window, the run queue and the sleep queue of the
processor are exclusive in every state. -/
theorem queues_exclusive {T W : Type*} [DecidableEq T] [DecidableEq W] {s : QueueState T W}
    (h : ((queueSystem T W).restrict fun s e => s.wakesInOrder e = true).Reachable s) :
    s.Exclusive :=
  (QueueState.Inv.of_reachable h).exclusive

/-- A thread that is woken after the switch away from it is moved to the run queue. -/
theorem queues_exclusive_woken : ∃ s : QueueState (Fin 4) Unit,
    ((queueSystem (Fin 4) Unit).restrict fun s e => s.wakesInOrder e = true).Reachable s ∧
      s.sleepQueue = [3] ∧ s.status 3 = .ready ∧ s.Exclusive := by
  have h : ((queueSystem (Fin 4) Unit).restrict fun s e => s.wakesInOrder e = true).Reachable _ :=
    .of_foldlM (f := fun s e => if s.wakesInOrder e = true then s.step e else none)
      (fun _ _ _ h => by split at h; exacts [⟨‹_›, h⟩, by cases h])
      ((QueueState.goToSleep 3).append [.schedule, .schedule, .schedule, .wakeUp () 3, .waker (),
        .waker (), .waker (), .waker ()])
      (.init QueueState.boot_init) rfl
  exact ⟨_, h, rfl, rfl, queues_exclusive h⟩

/-- `wake_up` makes a thread ready after `schedule` has dropped its lock and before it reads the
status again: `schedule` inserts it into the run queue, and it is in the sleep queue as well. -/
theorem queues_shared : ∃ s : QueueState (Fin 4) Unit,
    (queueSystem (Fin 4) Unit).Reachable s ∧ 3 ∈ s.queue ∧ 3 ∈ s.sleepQueue := by
  have h : (queueSystem (Fin 4) Unit).Reachable _ := .of_foldlM (f := QueueState.step)
    (fun _ _ _ h => h)
    ((QueueState.goToSleep 3).append [.wakeUp () 3, .waker (), .waker (), .waker (), .schedule,
      .schedule, .schedule])
    (.init QueueState.boot_init) rfl
  exact ⟨_, h, by decide, by decide⟩

end Ilobilix.Scheduler
