import Ilobilix.Lib.Semaphore
import Ilobilix.Lib.Spinlock

/-!
# The mutex

`lib::mutex` is a ticket spinlock with a semaphore in front of it: `lock` waits on the semaphore if
it finds the spinlock locked and then takes a ticket, `unlock` serves the next ticket and signals.
The check, the wait and the ticket are separate steps, and an `unlock` that nobody waits for leaves
a signal behind.

Why no sleeper is stranded is a count over the whole history. Every lock call takes one ticket and
every ticket ends in one signal, while the very first lock call cannot have waited: no ticket was
taken before. So the waits of the calls that are past the semaphore are fewer than the tickets, and
when all tickets are served and signalled the semaphore has a signal for every thread that waits.
-/

namespace Ilobilix.Lib

/-- Where a thread is in `mutex::lock` and `mutex::unlock`. -/
inductive MutexPc
  | out
  /-- `is_locked` was `true`, `_sem.wait` is next. -/
  | sawLocked
  | asleep
  /-- `_lock.lock` is next; `waited` if `_sem.wait` was called. -/
  | ready (waited : Bool)
  | spinning (ticket : ℕ)
  | holding (ticket : ℕ)
  /-- `is_locked` was `true`, `_lock.unlock` is next. -/
  | unlocking (ticket : ℕ)
  /-- `_sem.signal` is next. -/
  | signalling
  deriving DecidableEq

structure MutexState (T : Type*) where
  lock : Spinlock
  sem : Semaphore T
  pc : T → MutexPc

/-- The atomic steps of a thread. -/
inductive MutexStep
  | isLocked
  | wait
  | takeTicket
  | serve
  | unlock
  | unlockTicket
  | signal

namespace MutexPc

def ticket : MutexPc → Option ℕ
  | .spinning ticket | .holding ticket | .unlocking ticket => some ticket
  | _ => none

/-- The thread holds the mutex. -/
def holds : MutexPc → Prop
  | .holding _ | .unlocking _ => True
  | _ => False

/-- The thread has waited on the semaphore and has no ticket yet. -/
def pending : MutexPc → Prop
  | .asleep | .ready true => True
  | _ => False

end MutexPc

namespace MutexState

variable {T : Type*} [DecidableEq T]

def setPc (s : MutexState T) (t : T) (pc : MutexPc) : MutexState T :=
  { s with pc := Function.update s.pc t pc }

/-- One step of thread `t`; `none` if the thread is not there or has to spin. A thread that a signal
takes out of the queue is runnable. -/
def step (s : MutexState T) : T × MutexStep → Option (MutexState T)
  | (t, .isLocked) =>
      match s.pc t with
      | .out => some (s.setPc t (if s.lock.isLocked then .sawLocked else .ready false))
      | _ => none
  | (t, .wait) =>
      match s.pc t with
      | .sawLocked =>
          match s.sem.wait t with
          | (sem, true) => some { s.setPc t .asleep with sem := sem }
          | (sem, false) => some { s.setPc t (.ready true) with sem := sem }
      | _ => none
  | (t, .takeTicket) =>
      match s.pc t with
      | .ready _ => some { s.setPc t (.spinning s.lock.nextTicket) with lock := s.lock.take }
      | _ => none
  | (t, .serve) =>
      match s.pc t with
      | .spinning ticket =>
          if s.lock.servingTicket = ticket then some (s.setPc t (.holding ticket)) else none
      | _ => none
  | (t, .unlock) =>
      match s.pc t with
      | .holding ticket => some (s.setPc t (if s.lock.isLocked then .unlocking ticket else .out))
      | _ => none
  | (t, .unlockTicket) =>
      match s.pc t with
      | .unlocking _ => some { s.setPc t .signalling with lock := s.lock.unlock.1 }
      | _ => none
  | (t, .signal) =>
      match s.pc t with
      | .signalling =>
          match s.sem.signal false with
          | none => none
          | some (sem, none) => some { s.setPc t .out with sem := sem }
          | some (sem, some thread) =>
              some { (s.setPc t .out).setPc thread (.ready true) with sem := sem }
      | _ => none

/-- The lock is free and every thread is outside the mutex or asleep in `_sem.wait`. -/
def Quiescent (s : MutexState T) : Prop :=
  s.lock.isLocked = false ∧ ∀ t, s.pc t = .out ∨ s.pc t = .asleep

end MutexState

/-- Any number of threads that lock and unlock one mutex in matched pairs. -/
def mutexSystem (T : Type*) [DecidableEq T] : TransitionSystem (MutexState T) (T × MutexStep) :=
  .ofStep ⟨.new, ⟨[], 0⟩, fun _ => .out⟩ MutexState.step

/-! ## What a step does -/

namespace MutexState

variable {T : Type*} [DecidableEq T] {s s' : MutexState T} {t : T}

/-- The transitions of a mutex whose queue is balanced, with their guards. -/
inductive Moves (s : MutexState T) (t : T) : MutexState T → Prop
  | sawLocked (h : s.pc t = .out) (hl : s.lock.isLocked = true) : Moves s t (s.setPc t .sawLocked)
  | sawFree (h : s.pc t = .out) : Moves s t (s.setPc t (.ready false))
  | sleep (h : s.pc t = .sawLocked) (hs : s.sem.signals ≤ 0) :
      Moves s t { s.setPc t .asleep with sem := ⟨s.sem.threads ++ [t], s.sem.signals - 1⟩ }
  | pass (h : s.pc t = .sawLocked) (hs : 0 < s.sem.signals) :
      Moves s t { s.setPc t (.ready true) with sem := ⟨s.sem.threads, s.sem.signals - 1⟩ }
  | take {waited : Bool} (h : s.pc t = .ready waited) :
      Moves s t { s.setPc t (.spinning s.lock.nextTicket) with lock := s.lock.take }
  | acquire (h : s.pc t = .spinning s.lock.servingTicket) :
      Moves s t (s.setPc t (.holding s.lock.servingTicket))
  | unlock {ticket : ℕ} (h : s.pc t = .holding ticket) (hl : s.lock.isLocked = true) :
      Moves s t (s.setPc t (.unlocking ticket))
  | unlockFree {ticket : ℕ} (h : s.pc t = .holding ticket) (hl : s.lock.isLocked = false) :
      Moves s t (s.setPc t .out)
  | unlockTicket {ticket : ℕ} (h : s.pc t = .unlocking ticket) :
      Moves s t { s.setPc t .signalling with lock := s.lock.unlock.1 }
  | signal (h : s.pc t = .signalling) (hs : 0 ≤ s.sem.signals) :
      Moves s t { s.setPc t .out with sem := ⟨s.sem.threads, s.sem.signals + 1⟩ }
  | wake {thread : T} {threads : List T} (h : s.pc t = .signalling) (hs : s.sem.signals < 0)
      (hq : s.sem.threads = thread :: threads) :
      Moves s t { (s.setPc t .out).setPc thread (.ready true) with
        sem := ⟨threads, s.sem.signals + 1⟩ }

theorem moves_of_wait (hpc : s.pc t = .sawLocked) (h : s.step (t, .wait) = some s') :
    s.Moves t s' := by
  simp only [step, hpc, Semaphore.wait] at h
  by_cases hneg : s.sem.signals - 1 < 0
  · rw [if_pos hneg] at h
    cases h
    exact .sleep hpc (by omega)
  · rw [if_neg hneg] at h
    cases h
    exact .pass hpc (by omega)

theorem moves_of_signal (hb : s.sem.Balanced) (hpc : s.pc t = .signalling)
    (h : s.step (t, .signal) = some s') : s.Moves t s' := by
  simp only [step, hpc] at h
  obtain ⟨hd, -⟩ | ⟨-, thread, threads, hq, hneg, he⟩ | ⟨-, hpos, he⟩ := hb.signal_cases false
  · cases hd
  · rw [he] at h
    cases h
    exact .wake hpc hneg hq
  · rw [he] at h
    cases h
    exact .signal hpc hpos

theorem moves_of_step {l : MutexStep} (hb : s.sem.Balanced) (h : s.step (t, l) = some s') :
    s.Moves t s' := by
  cases l with
  | isLocked =>
      simp only [step] at h
      split at h
      · rename_i hpc
        cases h
        cases hl : s.lock.isLocked with
        | true => exact .sawLocked hpc hl
        | false => exact .sawFree hpc
      · cases h
  | wait =>
      cases hpc : s.pc t with
      | sawLocked => exact moves_of_wait hpc h
      | _ => simp [step, hpc] at h
  | takeTicket =>
      simp only [step] at h
      split at h
      · rename_i waited hpc
        cases h
        exact .take hpc
      · cases h
  | serve =>
      simp only [step] at h
      split at h
      · rename_i ticket hpc
        split at h
        · rename_i hserving
          cases h
          subst hserving
          exact .acquire hpc
        · cases h
      · cases h
  | unlock =>
      simp only [step] at h
      split at h
      · rename_i ticket hpc
        cases h
        cases hl : s.lock.isLocked with
        | true => exact .unlock hpc hl
        | false => exact .unlockFree hpc hl
      · cases h
  | unlockTicket =>
      simp only [step] at h
      split at h
      · rename_i ticket hpc
        cases h
        exact .unlockTicket hpc
      · cases h
  | signal =>
      cases hpc : s.pc t with
      | signalling => exact moves_of_signal hb hpc h
      | _ => simp [step, hpc] at h

/-! ## The semaphore's queue -/

/-- The queue holds exactly the sleeping threads. -/
structure Sleepers (s : MutexState T) : Prop where
  balanced : s.sem.Balanced
  nodup : s.sem.threads.Nodup
  mem_iff : ∀ u, u ∈ s.sem.threads ↔ s.pc u = .asleep

/-- A thread that neither goes to sleep nor is woken leaves the queue alone. -/
theorem Sleepers.setPc (h : s.Sleepers) {pc : MutexPc} {lock : Spinlock} (hold : s.pc t ≠ .asleep)
    (hnew : pc ≠ .asleep) : Sleepers { s.setPc t pc with lock := lock } := by
  refine ⟨h.balanced, h.nodup, fun u => ?_⟩
  by_cases hu : u = t
  · subst hu
    simp [MutexState.setPc, hnew, h.mem_iff, hold]
  · simp [MutexState.setPc, hu, h.mem_iff]

theorem Sleepers.sleep (h : s.Sleepers) (hpc : s.pc t = .sawLocked) (hs : s.sem.signals ≤ 0) :
    Sleepers { s.setPc t .asleep with sem := ⟨s.sem.threads ++ [t], s.sem.signals - 1⟩ } := by
  have ht : t ∉ s.sem.threads := by simp [h.mem_iff, hpc]
  refine ⟨?_, ?_, fun u => ?_⟩
  · have hb := h.balanced
    unfold Semaphore.Balanced at hb ⊢
    simp only [List.length_append, List.length_singleton]
    omega
  · simp only
    rw [List.nodup_append_comm]
    exact List.nodup_cons.2 ⟨ht, h.nodup⟩
  · by_cases hu : u = t
    · simp [MutexState.setPc, hu]
    · simp [MutexState.setPc, hu, h.mem_iff]

theorem Sleepers.wake (h : s.Sleepers) {thread : T} {threads : List T}
    (hpc : s.pc t = .signalling) (hs : s.sem.signals < 0)
    (hq : s.sem.threads = thread :: threads) :
    Sleepers { (s.setPc t .out).setPc thread (.ready true) with
      sem := ⟨threads, s.sem.signals + 1⟩ } := by
  have hnodup := h.nodup
  rw [hq, List.nodup_cons] at hnodup
  refine ⟨?_, hnodup.2, fun u => ?_⟩
  · have hb := h.balanced
    unfold Semaphore.Balanced at hb ⊢
    rw [hq, List.length_cons] at hb
    simp only
    omega
  · have hmem := h.mem_iff u
    rw [hq, List.mem_cons] at hmem
    by_cases hu : u = thread
    · simp [MutexState.setPc, hu, hnodup.1]
    · by_cases hut : u = t
      · subst hut
        simpa [MutexState.setPc, hu, hpc] using hmem
      · simpa [MutexState.setPc, hu, hut] using hmem

omit [DecidableEq T] in
theorem Sleepers.signals {signals : ℤ} (h : s.Sleepers) (hs : 0 ≤ s.sem.signals)
    (hs' : 0 ≤ signals) : Sleepers { s with sem := ⟨s.sem.threads, signals⟩ } := by
  refine ⟨?_, h.nodup, h.mem_iff⟩
  have hb := h.balanced
  unfold Semaphore.Balanced at hb ⊢
  simp only
  omega

theorem Sleepers.moves (h : s.Sleepers) (hm : s.Moves t s') : s'.Sleepers := by
  cases hm with
  | sawLocked hpc _ | sawFree hpc | take hpc | acquire hpc | unlock hpc _ | unlockFree hpc _
  | unlockTicket hpc => exact h.setPc (by simp [hpc]) (by simp)
  | sleep hpc hs => exact h.sleep hpc hs
  | pass hpc hs =>
      have h' : Sleepers (s.setPc t (.ready true)) := h.setPc (by simp [hpc]) (by simp)
      exact h'.signals (le_of_lt hs) (by omega)
  | signal hpc hs =>
      have h' : Sleepers (s.setPc t .out) := h.setPc (by simp [hpc]) (by simp)
      exact h'.signals hs (by omega)
  | wake hpc hs hq => exact h.wake hpc hs hq

/-! ## Mutual exclusion -/

/-- The tickets in use, and who may enter with which. -/
structure Excludes (s : MutexState T) : Prop where
  tickets : s.lock.Tickets fun u => (s.pc u).ticket
  holds : ∀ u, (s.pc u).holds → (s.pc u).ticket = some s.lock.servingTicket

/-- A thread that keeps its ticket, and may enter only with the ticket being served. -/
theorem Excludes.setPc (h : s.Excludes) {pc : MutexPc} {sem : Semaphore T}
    (hticket : pc.ticket = (s.pc t).ticket)
    (hholds : pc.holds → pc.ticket = some s.lock.servingTicket) :
    Excludes { s.setPc t pc with sem := sem } := by
  refine ⟨h.tickets.congr fun u => ?_, fun u hu => ?_⟩ <;> by_cases hut : u = t
  · subst hut
    simp [MutexState.setPc, hticket]
  · simp [MutexState.setPc, hut]
  · subst hut
    simp only [MutexState.setPc, Function.update_self] at hu ⊢
    exact hholds hu
  · simp only [MutexState.setPc, Function.update_of_ne hut] at hu ⊢
    exact h.holds u hu

theorem Excludes.take (h : s.Excludes) : Excludes
    { s.setPc t (.spinning s.lock.nextTicket) with lock := s.lock.take } := by
  refine ⟨h.tickets.take (t := t) ?_ fun u hu => ?_, fun u hu => ?_⟩
  · simp [MutexState.setPc, MutexPc.ticket]
  · simp [MutexState.setPc, hu]
  · by_cases hut : u = t
    · subst hut
      simp [MutexState.setPc, MutexPc.holds] at hu
    · simp only [MutexState.setPc, Function.update_of_ne hut] at hu ⊢
      exact h.holds u hu

theorem Excludes.unlockTicket (h : s.Excludes) {ticket : ℕ} (hpc : s.pc t = .unlocking ticket) :
    Excludes { s.setPc t .signalling with lock := s.lock.unlock.1 } := by
  have ht := h.holds t (by simp [hpc, MutexPc.holds])
  refine ⟨h.tickets.unlock ht ?_ fun u hu => ?_, fun u hu => ?_⟩
  · simp [MutexState.setPc, MutexPc.ticket]
  · simp [MutexState.setPc, hu]
  · -- Nobody else holds the mutex: the ticket being served is the one of `t`.
    exfalso
    by_cases hut : u = t
    · subst hut
      simp [MutexState.setPc, MutexPc.holds] at hu
    · simp only [MutexState.setPc, Function.update_of_ne hut] at hu
      exact hut (h.tickets.inj u t _ (h.holds u hu) ht)

theorem Excludes.moves (hq : s.Sleepers) (h : s.Excludes) (hm : s.Moves t s') : s'.Excludes := by
  cases hm with
  | sawLocked hpc _ | sawFree hpc | sleep hpc _ | pass hpc _ | signal hpc _ =>
      exact h.setPc (by simp [hpc, MutexPc.ticket]) (by simp [MutexPc.holds])
  | take hpc => exact h.take
  | acquire hpc =>
      exact h.setPc (by simp [hpc, MutexPc.ticket]) (by simp [MutexPc.ticket])
  | unlock hpc _ =>
      have ht := h.holds t (by simp [hpc, MutexPc.holds])
      rw [hpc] at ht
      exact h.setPc (by simp [hpc, MutexPc.ticket]) fun _ => ht
  | unlockFree hpc hl =>
      have ht := h.holds t (by simp [hpc, MutexPc.holds])
      rw [h.tickets.isLocked ht] at hl
      cases hl
  | unlockTicket hpc => exact h.unlockTicket hpc
  | @wake thread threads hpc _ hthreads =>
      have hasleep : s.pc thread = .asleep := (hq.mem_iff thread).1 (by simp [hthreads])
      have hne : thread ≠ t := by
        rintro rfl
        rw [hpc] at hasleep
        cases hasleep
      have h' : Excludes (s.setPc t .out) :=
        h.setPc (by simp [hpc, MutexPc.ticket]) (by simp [MutexPc.holds])
      refine h'.setPc ?_ (by simp [MutexPc.holds])
      simp [MutexState.setPc, hne, hasleep, MutexPc.ticket]

/-! ## The count -/

/-- With `p` threads that have waited and have no ticket yet and `q` threads that have served the
next ticket and not signalled, the signals make up for all waits but those of `p`, with one to
spare. -/
structure Counts (s : MutexState T) : Prop where
  fresh : s.lock.nextTicket = 0 →
    0 ≤ s.sem.signals ∧ ∀ u, s.pc u ≠ .sawLocked ∧ ¬(s.pc u).pending
  count : ∃ p q : ℕ, HasCount s.pc MutexPc.pending p ∧ HasCount s.pc (· = .signalling) q ∧
    (0 < s.lock.nextTicket →
      (s.lock.servingTicket : ℤ) + 1 ≤ s.sem.signals + s.lock.nextTicket + p + q)

/-- A thread that comes to a place that is not counted, from one that is not. -/
theorem Counts.setPc (h : s.Counts) {pc : MutexPc} (hpend : pc.pending ↔ (s.pc t).pending)
    (hsig : pc = .signalling ↔ s.pc t = .signalling)
    (hsaw : pc = .sawLocked → 0 < s.lock.nextTicket) : Counts (s.setPc t pc) := by
  obtain ⟨p, q, hp, hq, hc⟩ := h.count
  refine ⟨fun h0 => ⟨(h.fresh h0).1, fun u => ?_⟩, p, q, hp.stay hpend, hq.stay hsig, hc⟩
  have hu := (h.fresh h0).2
  by_cases hut : u = t
  · subst hut
    simp only [MutexState.setPc, Function.update_self]
    refine ⟨fun hpc => ?_, fun hpc => (hu u).2 (hpend.1 hpc)⟩
    have hpos := hsaw hpc
    have hzero : s.lock.nextTicket = 0 := h0
    omega
  · simpa [MutexState.setPc, hut] using hu u

/-- A wait uses up one signal, and its thread is pending. -/
theorem Counts.wait (h : s.Counts) {pc : MutexPc} {threads : List T} (hpc : s.pc t = .sawLocked)
    (hpend : pc.pending) :
    Counts { s.setPc t pc with sem := ⟨threads, s.sem.signals - 1⟩ } := by
  obtain ⟨p, q, hp, hq, hc⟩ := h.count
  refine ⟨fun h0 => absurd hpc ((h.fresh h0).2 t).1, p + 1, q,
    hp.enter (by simp [hpc, MutexPc.pending]) hpend, hq.stay ?_, fun hpos => ?_⟩
  · cases pc <;> simp_all [MutexPc.pending]
  · have := hc hpos
    simp only [MutexState.setPc]
    omega

theorem Counts.take (htickets : s.lock.servingTicket ≤ s.lock.nextTicket) (h : s.Counts)
    {waited : Bool} (hpc : s.pc t = .ready waited) :
    Counts { s.setPc t (.spinning s.lock.nextTicket) with lock := s.lock.take } := by
  obtain ⟨p, q, hp, hq, hc⟩ := h.count
  have hq' := hq.stay (a := t) (b := .spinning s.lock.nextTicket) (by simp [hpc])
  refine ⟨fun h0 => by simp [Spinlock.take] at h0, ?_⟩
  simp only [Spinlock.take, MutexState.setPc]
  cases waited with
  | true =>
      -- A thread that has waited found the lock locked, so this is not the first ticket.
      have hpend : (s.pc t).pending := by simp [hpc, MutexPc.pending]
      have hpos : 0 < s.lock.nextTicket :=
        Nat.pos_of_ne_zero fun h0 => ((h.fresh h0).2 t).2 hpend
      have hp0 := hp.pos hpend
      refine ⟨p - 1, q, hp.leave hpend (by simp [MutexPc.pending]), hq', fun _ => ?_⟩
      have := hc hpos
      omega
  | false =>
      refine ⟨p, q, hp.stay (by simp [hpc, MutexPc.pending]), hq', fun _ => ?_⟩
      by_cases hpos : 0 < s.lock.nextTicket
      · have := hc hpos
        omega
      · have := (h.fresh (by omega)).1
        omega

theorem Counts.unlockTicket (h : s.Counts) {ticket : ℕ} (hpc : s.pc t = .unlocking ticket) :
    Counts { s.setPc t .signalling with lock := s.lock.unlock.1 } := by
  obtain ⟨p, q, hp, hq, hc⟩ := h.count
  have hnext : s.lock.unlock.1.nextTicket = s.lock.nextTicket := by
    unfold Spinlock.unlock
    split <;> rfl
  have hserving : s.lock.unlock.1.servingTicket ≤ s.lock.servingTicket + 1 := by
    unfold Spinlock.unlock
    split <;> simp
  refine ⟨fun h0 => ⟨(h.fresh (hnext ▸ h0)).1, fun u => ?_⟩, p, q + 1,
    hp.stay (by simp [hpc, MutexPc.pending]), hq.enter (by simp [hpc]) rfl, fun hpos => ?_⟩
  · have hu := (h.fresh (hnext ▸ h0)).2 u
    by_cases hut : u = t
    · simp [MutexState.setPc, hut, MutexPc.pending]
    · simpa [MutexState.setPc, hut] using hu
  · have := hc (hnext ▸ hpos)
    simp only [MutexState.setPc, hnext]
    omega

theorem Counts.signal (h : s.Counts) (hpc : s.pc t = .signalling) :
    Counts { s.setPc t .out with sem := ⟨s.sem.threads, s.sem.signals + 1⟩ } := by
  obtain ⟨p, q, hp, hq, hc⟩ := h.count
  have hq0 := hq.pos hpc
  refine ⟨fun h0 => ⟨?_, fun u => ?_⟩, p, q - 1, hp.stay (by simp [hpc, MutexPc.pending]),
    hq.leave hpc (by simp), fun hpos => ?_⟩
  · have := (h.fresh h0).1
    simp only
    omega
  · have hu := (h.fresh h0).2 u
    by_cases hut : u = t
    · simp [MutexState.setPc, hut, MutexPc.pending]
    · simpa [MutexState.setPc, hut] using hu
  · have := hc hpos
    simp only [MutexState.setPc]
    omega

theorem Counts.wake (h : s.Counts) {thread : T} {threads : List T} (hpc : s.pc t = .signalling)
    (hthread : s.pc thread = .asleep) :
    Counts { (s.setPc t .out).setPc thread (.ready true) with
      sem := ⟨threads, s.sem.signals + 1⟩ } := by
  obtain ⟨p, q, hp, hq, hc⟩ := h.count
  have hne : thread ≠ t := by
    rintro rfl
    rw [hpc] at hthread
    cases hthread
  have hq0 := hq.pos hpc
  have hp' := hp.stay (a := t) (b := .out) (by simp [hpc, MutexPc.pending])
  have hq' := hq.leave (a := t) (b := .out) hpc (by simp)
  refine ⟨fun h0 => absurd ?_ ((h.fresh h0).2 thread).2, p, q - 1, hp'.stay ?_, hq'.stay ?_,
    fun hpos => ?_⟩
  · simp [hthread, MutexPc.pending]
  · simp [hne, hthread, MutexPc.pending]
  · simp [hne, hthread]
  · have := hc hpos
    simp only [MutexState.setPc]
    omega

theorem Counts.moves (hq : s.Sleepers) (hx : s.Excludes) (h : s.Counts) (hm : s.Moves t s') :
    s'.Counts := by
  cases hm with
  | sawLocked hpc hl =>
      refine h.setPc (by simp [hpc, MutexPc.pending]) (by simp [hpc]) fun _ => ?_
      have hle := hx.tickets.le
      simp only [Spinlock.isLocked, bne_iff_ne, ne_eq] at hl
      omega
  | sawFree hpc | acquire hpc | unlock hpc _ | unlockFree hpc _ =>
      exact h.setPc (by simp [hpc, MutexPc.pending]) (by simp [hpc]) (by simp)
  | sleep hpc _ | pass hpc _ => exact h.wait hpc (by simp [MutexPc.pending])
  | take hpc => exact h.take hx.tickets.le hpc
  | unlockTicket hpc => exact h.unlockTicket hpc
  | signal hpc _ => exact h.signal hpc
  | wake hpc _ hthreads => exact h.wake hpc ((hq.mem_iff _).1 (by simp [hthreads]))

/-! ## Every run -/

structure Inv (s : MutexState T) : Prop where
  sleepers : s.Sleepers
  excludes : s.Excludes
  counts : s.Counts

theorem inv_of_reachable (h : (mutexSystem T).Reachable s) : s.Inv := by
  refine h.invariant ?_ fun s l s' _ hI hs => ?_
  · rintro s rfl
    refine ⟨⟨by simp [Semaphore.Balanced], List.nodup_nil, by simp⟩,
      ⟨Spinlock.Tickets.new.congr fun _ => rfl, by simp [MutexPc.holds]⟩,
      ⟨by simp [MutexPc.pending], 0, 0, .zero (by simp [MutexPc.pending]), .zero (by simp), ?_⟩⟩
    simp [Spinlock.new]
  · have hm := moves_of_step hI.sleepers.balanced hs
    exact ⟨hI.sleepers.moves hm, hI.excludes.moves hI.sleepers hm,
      hI.counts.moves hI.sleepers hI.excludes hm⟩

omit [DecidableEq T] in
/-- When nothing runs, the signals that are left over cover every thread that is queued. -/
theorem Inv.not_asleep_of_quiescent (h : s.Inv) (hq : s.Quiescent) (t : T) :
    s.pc t ≠ .asleep := by
  intro ht
  obtain ⟨p, q, hp, hsig, hc⟩ := h.counts.count
  have hpend : ∀ u, u ∈ s.sem.threads ↔ (s.pc u).pending := fun u => by
    rw [h.sleepers.mem_iff]
    obtain hu | hu := hq.2 u <;> simp [hu, MutexPc.pending]
  have hp' : p = s.sem.threads.length := hp.eq_length h.sleepers.nodup hpend
  have hq0 : q = ([] : List T).length := hsig.eq_length List.nodup_nil fun u => by
    obtain hu | hu := hq.2 u <;> simp [hu]
  have hpos : 0 < s.lock.nextTicket :=
    Nat.pos_of_ne_zero fun h0 => ((h.counts.fresh h0).2 t).2 (by simp [ht, MutexPc.pending])
  have hfree : s.lock.servingTicket = s.lock.nextTicket := by
    simpa [Spinlock.isLocked] using hq.1
  have hlen := List.length_pos_of_mem ((h.sleepers.mem_iff t).2 ht)
  have hb := h.sleepers.balanced
  have hbound := hc hpos
  unfold Semaphore.Balanced at hb
  rw [List.length_nil] at hq0
  omega

end MutexState

/-- At most one thread holds the mutex, and no quiescent state has a sleeping thread. -/
theorem mutex_safe {T : Type*} [DecidableEq T] {s : MutexState T}
    (h : (mutexSystem T).Reachable s) :
    (∀ t u, (s.pc t).holds → (s.pc u).holds → t = u) ∧
      (s.Quiescent → ∀ t, s.pc t ≠ .asleep) := by
  have hI := MutexState.inv_of_reachable h
  refine ⟨fun t u ht hu => ?_, hI.not_asleep_of_quiescent⟩
  exact hI.excludes.tickets.inj t u _ (hI.excludes.holds t ht) (hI.excludes.holds u hu)

/-- One thread sleeps until the other one unlocks, and both are done. -/
theorem mutex_safe_contended : ∃ s : MutexState Bool, (mutexSystem Bool).Reachable s ∧
    s.Quiescent ∧ (∀ t u, (s.pc t).holds → (s.pc u).holds → t = u) ∧ ∀ t, s.pc t ≠ .asleep := by
  have h : (mutexSystem Bool).Reachable _ := .ofStep
    [(true, .isLocked), (true, .takeTicket), (true, .serve), (false, .isLocked), (false, .wait),
      (true, .unlock), (true, .unlockTicket), (true, .signal), (false, .takeTicket),
      (false, .serve), (false, .unlock), (false, .unlockTicket), (false, .signal)] rfl
  refine ⟨_, h, ?quiescent, (mutex_safe h).1, (mutex_safe h).2 ?quiescent⟩
  refine ⟨rfl, fun t => ?_⟩
  cases t <;> exact .inl rfl

end Ilobilix.Lib
