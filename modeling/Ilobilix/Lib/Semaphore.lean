import Ilobilix.Foundation.Counting
import Ilobilix.Foundation.Transition
import Mathlib.Algebra.GroupWithZero.Nat

/-!
# The counting semaphore

`Semaphore` is the semaphore of `lib/semaphore.cpp`. Its operations are critical sections under the
semaphore's own lock, so each of them is a function here. A thread that has to wait is appended to
`threads` and yields; `yield` returns the reason given to `thread::wake_up`, and a reason other than
`0` sends the thread into a second critical section, `interrupted`.

`signal` calls `wake_up (0)` after it has dropped the lock. The system below therefore keeps the
threads that a signal took out of the queue and has not woken yet, and a wake-up is a step of its
own. Nothing ties the wake-up to the wait it is meant for: if the thread is interrupted in between
and waits again, the late wake-up ends the new wait, with the thread still in the queue.
-/

namespace Ilobilix.Lib

/-- `lib::semaphore`, less the lock that makes each operation atomic. -/
structure Semaphore (T : Type*) where
  threads : List T
  signals : ℤ

namespace Semaphore

variable {T : Type*}

/-- `semaphore::test`. -/
def test (sem : Semaphore T) : Semaphore T × Bool :=
  if 0 < sem.signals then ({ sem with signals := sem.signals - 1 }, true) else (sem, false)

/-- `semaphore::wait` up to `yield`. The result says whether the thread goes to sleep. -/
def wait (sem : Semaphore T) (me : T) : Semaphore T × Bool :=
  let signals := sem.signals - 1
  if signals < 0 then (⟨sem.threads ++ [me], signals⟩, true) else (⟨sem.threads, signals⟩, false)

/-- `std::remove` moves the elements that stay to the front and leaves the rest of the list as it
was; `threads.erase (it)` then erases the one element after them. -/
def eraseRemoved [DecidableEq T] (threads : List T) (me : T) : List T :=
  let kept := threads.filter (· ≠ me)
  kept ++ threads.drop (kept.length + 1)

/-- `semaphore::wait` after a `yield` that did not return `0`. -/
def interrupted [DecidableEq T] (sem : Semaphore T) (me : T) : Semaphore T :=
  if me ∈ sem.threads then ⟨eraseRemoved sem.threads me, sem.signals + 1⟩ else sem

/-- A signal with `drop` is dropped when nobody waits. -/
def drops (sem : Semaphore T) (drop : Bool) : Bool := drop && sem.threads.length == 0

/-- `semaphore::signal` up to `wake_up`, with the thread to wake; `none` if `bug_on` fires. -/
def signal (sem : Semaphore T) (drop : Bool) : Option (Semaphore T × Option T) :=
  if sem.drops drop then some (sem, none)
  else
    let signals := sem.signals + 1
    if signals ≤ 0 then
      match sem.threads with
      | [] => none
      | thread :: threads => some (⟨threads, signals⟩, some thread)
    else some (⟨sem.threads, signals⟩, none)

/-! ## The queue and the counter -/

/-- As many threads are queued as signals are missing. -/
def Balanced (sem : Semaphore T) : Prop := (sem.threads.length : ℤ) = max 0 (-sem.signals)

theorem Balanced.test {sem : Semaphore T} (h : sem.Balanced) : sem.test.1.Balanced := by
  unfold Balanced at h ⊢
  unfold Semaphore.test
  split <;> simp only <;> omega

theorem Balanced.wait {sem : Semaphore T} (h : sem.Balanced) (me : T) :
    (sem.wait me).1.Balanced := by
  unfold Balanced at h ⊢
  unfold Semaphore.wait
  dsimp only
  split
  · simp only [List.length_append, List.length_singleton]
    omega
  · simp only
    omega

/-- One element is erased, however often the thread is queued. -/
theorem length_eraseRemoved [DecidableEq T] {threads : List T} {me : T} (h : me ∈ threads) :
    (eraseRemoved threads me).length = threads.length - 1 := by
  have hlt : (threads.filter (· ≠ me)).length < threads.length :=
    List.length_filter_lt_length_iff_exists.2 ⟨me, h, by simp⟩
  simp only [eraseRemoved, List.length_append, List.length_drop]
  omega

theorem Balanced.interrupted [DecidableEq T] {sem : Semaphore T} (h : sem.Balanced) (me : T) :
    (sem.interrupted me).Balanced := by
  unfold Semaphore.interrupted
  split
  · rename_i hme
    have hpos := List.length_pos_of_mem hme
    unfold Balanced at h ⊢
    simp only [length_eraseRemoved hme]
    omega
  · exact h

/-- What a signal does to a balanced semaphore: it is dropped, it wakes the first thread of the
queue, or it is counted. In none of the cases does `bug_on` fire. -/
theorem Balanced.signal_cases {sem : Semaphore T} (h : sem.Balanced) (drop : Bool) :
    (sem.drops drop = true ∧ sem.signal drop = some (sem, none)) ∨
    (sem.drops drop = false ∧ ∃ thread threads, sem.threads = thread :: threads ∧
      sem.signals < 0 ∧
      sem.signal drop = some (⟨threads, sem.signals + 1⟩, some thread)) ∨
    (sem.drops drop = false ∧ 0 ≤ sem.signals ∧
      sem.signal drop = some (⟨sem.threads, sem.signals + 1⟩, none)) := by
  unfold Semaphore.signal
  cases hd : sem.drops drop with
  | true => simp
  | false =>
      simp only [Bool.false_eq_true, if_false, true_and, false_and, false_or]
      unfold Balanced at h
      by_cases hs : sem.signals + 1 ≤ 0
      · left
        rw [if_pos hs]
        cases hq : sem.threads with
        | nil =>
            rw [hq, List.length_nil] at h
            omega
        | cons thread threads => exact ⟨thread, threads, rfl, by omega, rfl⟩
      · right
        rw [if_neg hs]
        exact ⟨by omega, rfl⟩

theorem Balanced.signal {sem : Semaphore T} (h : sem.Balanced) {drop : Bool}
    {r : Semaphore T × Option T} (hr : sem.signal drop = some r) : r.1.Balanced := by
  obtain ⟨-, he⟩ | ⟨-, thread, threads, hq, hs, he⟩ | ⟨-, hs, he⟩ := h.signal_cases drop
  · rw [he, Option.some.injEq] at hr
    exact hr ▸ h
  · rw [he, Option.some.injEq] at hr
    subst hr
    unfold Balanced at h ⊢
    rw [hq, List.length_cons] at h
    simp only
    omega
  · rw [he, Option.some.injEq] at hr
    subst hr
    unfold Balanced at h ⊢
    simp only
    omega

/-- A thread that is queued once leaves the queue for good. -/
theorem eraseRemoved_of_nodup [DecidableEq T] {threads : List T} {me : T} (h : threads.Nodup)
    (hme : me ∈ threads) : eraseRemoved threads me = threads.filter (· ≠ me) := by
  have hlen : (threads.filter (· ≠ me)).length + 1 = threads.length := by
    have herase : threads.erase me = threads.filter (· ≠ me) := by
      rw [h.erase_eq_filter]
      exact List.filter_congr fun a _ => by simp [bne, beq_eq_decide]
    have hpos := List.length_pos_of_mem hme
    rw [← herase, List.length_erase_of_mem hme]
    omega
  simp only [eraseRemoved]
  rw [hlen, List.drop_length, List.append_nil]

end Semaphore

/-! ## The system

The counters are not part of the program: `completed` counts the waits that returned without an
interruption, `tested` the tests that returned `true` and `effective` the signals that were not
dropped. -/

/-- Where a thread is: outside `wait`, asleep in its `yield`, or made ready by `wake_up (reason)`. -/
inductive Phase
  | out
  | asleep
  | woken (reason : ℕ)
  deriving DecidableEq

structure SemState (T : Type*) where
  sem : Semaphore T
  phase : T → Phase
  /-- The threads a signal has taken out of the queue, before its `wake_up (0)`. -/
  waking : List T
  /-- The `bug_on` of `signal` has fired. -/
  bug : Bool
  completed : ℕ
  tested : ℕ
  effective : ℕ

inductive SemEvent (T : Type*)
  | wait (me : T)
  | test
  | signal (drop : Bool)
  | wakeUp (thread : T)
  | interrupt (thread : T) (reason : ℕ)
  | resume (me : T)

/-- `thread::wake_up` has an effect on a sleeping thread only. -/
def Phase.wakeUp (reason : ℕ) : Phase → Phase
  | .asleep => .woken reason
  | phase => phase

namespace SemState

variable {T : Type*} [DecidableEq T]

def setPhase (s : SemState T) (t : T) (phase : Phase) : SemState T :=
  { s with phase := Function.update s.phase t phase }

/-- One step; `none` if the event cannot happen in the state. -/
def step (s : SemState T) : SemEvent T → Option (SemState T)
  | .wait me =>
      if s.phase me = .out then
        match s.sem.wait me with
        | (sem, true) => some { s.setPhase me .asleep with sem := sem }
        | (sem, false) => some { s with sem := sem, completed := s.completed + 1 }
      else none
  | .test =>
      match s.sem.test with
      | (sem, true) => some { s with sem := sem, tested := s.tested + 1 }
      | (sem, false) => some { s with sem := sem }
  | .signal drop =>
      match s.sem.signal drop with
      | none => some { s with bug := true }
      | some (sem, none) =>
          some { s with sem := sem, effective := s.effective + if s.sem.drops drop then 0 else 1 }
      | some (sem, some thread) =>
          some { s with sem := sem, waking := thread :: s.waking, effective := s.effective + 1 }
  | .wakeUp thread =>
      if thread ∈ s.waking then
        some { s.setPhase thread ((s.phase thread).wakeUp 0) with
          waking := s.waking.erase thread }
      else none
  | .interrupt thread reason =>
      if reason ≠ 0 then some (s.setPhase thread ((s.phase thread).wakeUp reason)) else none
  | .resume me =>
      match s.phase me with
      | .woken 0 => some { s.setPhase me .out with completed := s.completed + 1 }
      | .woken (_ + 1) => some { s.setPhase me .out with sem := s.sem.interrupted me }
      | _ => none

end SemState

/-- The runs of any number of threads on a semaphore with the given initial count. -/
def semaphoreSystem (T : Type*) [DecidableEq T] (initial : ℕ) :
    TransitionSystem (SemState T) (SemEvent T) :=
  .ofStep ⟨⟨[], initial⟩, fun _ => .out, [], false, 0, 0, 0⟩ SemState.step

/-! ## Accounting

Every signal that is not dropped is counted in `signals`, is a wake-up still to be made, has made a
thread ready or has been used up. -/

namespace SemState

variable {T : Type*} [DecidableEq T] {initial : ℕ} {s s' : SemState T}

structure Accounts (initial : ℕ) (s : SemState T) : Prop where
  balanced : s.sem.Balanced
  noBug : s.bug = false
  count : ∃ w, HasCount s.phase (· = .woken 0) w ∧
    s.completed + s.tested + s.sem.signals.toNat + s.waking.length + w ≤ initial + s.effective

theorem Accounts.wait {me : T} (h : s.Accounts initial) (hs : s.step (.wait me) = some s') :
    s'.Accounts initial := by
  obtain ⟨w, hw, hc⟩ := h.count
  have hb := h.balanced.wait me
  simp only [step] at hs
  split at hs
  · rename_i hout
    split at hs
    · rename_i sem hwait
      cases hs
      simp only [hwait] at hb
      refine ⟨hb, h.noBug, w, hw.stay (by simp [hout]), ?_⟩
      unfold Semaphore.wait at hwait
      dsimp only at hwait
      split at hwait
      · cases hwait
        simp only [setPhase]
        omega
      · cases hwait
    · rename_i sem hwait
      cases hs
      simp only [hwait] at hb
      refine ⟨hb, h.noBug, w, hw, ?_⟩
      unfold Semaphore.wait at hwait
      dsimp only at hwait
      split at hwait
      · cases hwait
      · cases hwait
        simp only
        omega
  · cases hs

theorem Accounts.test (h : s.Accounts initial) (hs : s.step .test = some s') :
    s'.Accounts initial := by
  obtain ⟨w, hw, hc⟩ := h.count
  have hb := h.balanced.test
  simp only [step, Semaphore.test] at hs hb
  by_cases hpos : 0 < s.sem.signals
  · rw [if_pos hpos] at hs hb
    cases hs
    refine ⟨hb, h.noBug, w, hw, ?_⟩
    simp only
    omega
  · rw [if_neg hpos] at hs
    cases hs
    exact h

theorem Accounts.signal {drop : Bool} (h : s.Accounts initial)
    (hs : s.step (.signal drop) = some s') : s'.Accounts initial := by
  obtain ⟨w, hw, hc⟩ := h.count
  simp only [step] at hs
  obtain ⟨hd, he⟩ | ⟨-, thread, threads, -, hneg, he⟩ | ⟨hd, hpos, he⟩ :=
    h.balanced.signal_cases drop
  · rw [he] at hs
    cases hs
    refine ⟨h.balanced, h.noBug, w, hw, ?_⟩
    simp only [hd, if_true]
    omega
  · have hb := h.balanced.signal he
    rw [he] at hs
    cases hs
    refine ⟨hb, h.noBug, w, hw, ?_⟩
    simp only [List.length_cons]
    omega
  · have hb := h.balanced.signal he
    rw [he] at hs
    cases hs
    refine ⟨hb, h.noBug, w, hw, ?_⟩
    simp only [hd, Bool.false_eq_true, if_false]
    omega

theorem Accounts.wakeUp {thread : T} (h : s.Accounts initial)
    (hs : s.step (.wakeUp thread) = some s') : s'.Accounts initial := by
  obtain ⟨w, hw, hc⟩ := h.count
  simp only [step] at hs
  split at hs
  · rename_i hmem
    cases hs
    have hlen := List.length_erase_of_mem hmem
    have hpos := List.length_pos_of_mem hmem
    refine ⟨h.balanced, h.noBug, ?_⟩
    simp only [setPhase]
    -- The wake-up turns into a ready thread, or is lost on a thread that does not sleep.
    by_cases hp : s.phase thread = .asleep
    · refine ⟨w + 1, hw.enter (by simp [hp]) (by simp [hp, Phase.wakeUp]), ?_⟩
      omega
    · refine ⟨w, hw.stay ?_, ?_⟩
      · cases hq : s.phase thread <;> simp_all [Phase.wakeUp]
      · omega
  · cases hs

theorem Accounts.interrupt {thread : T} {reason : ℕ} (h : s.Accounts initial)
    (hs : s.step (.interrupt thread reason) = some s') : s'.Accounts initial := by
  obtain ⟨w, hw, hc⟩ := h.count
  simp only [step] at hs
  split at hs
  · rename_i hr
    cases hs
    refine ⟨h.balanced, h.noBug, w, hw.stay ?_, hc⟩
    cases hq : s.phase thread <;> simp_all [Phase.wakeUp]
  · cases hs

theorem Accounts.resume {me : T} (h : s.Accounts initial) (hs : s.step (.resume me) = some s') :
    s'.Accounts initial := by
  obtain ⟨w, hw, hc⟩ := h.count
  simp only [step] at hs
  split at hs
  · rename_i hp
    cases hs
    have hpos : 0 < w := hw.pos hp
    refine ⟨h.balanced, h.noBug, w - 1, hw.leave hp (by simp), ?_⟩
    simp only [setPhase]
    omega
  · rename_i r hp
    cases hs
    refine ⟨h.balanced.interrupted me, h.noBug, w, hw.stay (by simp [hp]), ?_⟩
    have hsig : (s.sem.interrupted me).signals.toNat ≤ s.sem.signals.toNat := by
      unfold Semaphore.interrupted
      split
      · rename_i hme
        have hpos := List.length_pos_of_mem hme
        have hb := h.balanced
        unfold Semaphore.Balanced at hb
        simp only
        omega
      · exact le_refl _
    simp only [setPhase]
    omega
  · cases hs

theorem Accounts.step {e : SemEvent T} (h : s.Accounts initial) (hs : s.step e = some s') :
    s'.Accounts initial := by
  cases e with
  | wait me => exact h.wait hs
  | test => exact h.test hs
  | signal drop => exact h.signal hs
  | wakeUp thread => exact h.wakeUp hs
  | interrupt thread reason => exact h.interrupt hs
  | resume me => exact h.resume hs

/-- Balance, no `bug_on` and the bound on the waits do not depend on when the wake-ups are made. -/
theorem accounts_of_reachable (h : (semaphoreSystem T initial).Reachable s) :
    s.Accounts initial := by
  refine h.invariant ?_ fun s e s' _ hI hs => hI.step hs
  rintro s rfl
  refine ⟨by simp [Semaphore.Balanced], rfl, 0, HasCount.zero (by simp), ?_⟩
  simp

/-! ## The queue -/

/-- A wake-up that finds its thread asleep finds it out of the queue: the thread is still in the
wait the signal took it out of. -/
def WakesInTime (s : SemState T) : SemEvent T → Prop
  | .wakeUp thread => s.phase thread = .asleep → thread ∉ s.sem.threads
  | _ => True

instance (s : SemState T) : (e : SemEvent T) → Decidable (s.WakesInTime e)
  | .wakeUp thread => inferInstanceAs (Decidable (s.phase thread = .asleep → thread ∉ s.sem.threads))
  | .wait _ | .test | .signal _ | .interrupt _ _ | .resume _ => isTrue trivial

/-- A queued thread has not been woken by a signal. -/
structure Queued (s : SemState T) : Prop where
  nodup : s.sem.threads.Nodup
  phase : ∀ t ∈ s.sem.threads, s.phase t = .asleep ∨ ∃ r, s.phase t = .woken (r + 1)

/-- A queued thread keeps its phase when another thread moves. -/
theorem Queued.of_subset {threads : List T} {t : T} {phase : Phase} (h : s.Queued)
    (hsub : ∀ u ∈ threads, u ∈ s.sem.threads ∧ u ≠ t) (u : T) (hu : u ∈ threads) :
    Function.update s.phase t phase u = .asleep ∨
      ∃ r, Function.update s.phase t phase u = .woken (r + 1) := by
  obtain ⟨hmem, hne⟩ := hsub u hu
  rw [Function.update_of_ne hne]
  exact h.phase u hmem

omit [DecidableEq T] in
theorem Queued.notMem_of_out {t : T} (h : s.Queued) (ht : s.phase t = .out) :
    t ∉ s.sem.threads := by
  intro hmem
  obtain hp | ⟨r, hp⟩ := h.phase t hmem <;> rw [ht] at hp <;> cases hp

theorem Queued.wait {me : T} (h : s.Queued) (hs : s.step (.wait me) = some s') : s'.Queued := by
  simp only [SemState.step] at hs
  split at hs
  · rename_i hout
    have hme := h.notMem_of_out hout
    unfold Semaphore.wait at hs
    dsimp only at hs
    by_cases hneg : s.sem.signals - 1 < 0
    · rw [if_pos hneg] at hs
      cases hs
      refine ⟨?_, fun t ht => ?_⟩
      · simp only
        rw [List.nodup_append_comm]
        exact List.nodup_cons.2 ⟨hme, h.nodup⟩
      · simp only [List.mem_append, List.mem_singleton] at ht
        by_cases htm : t = me
        · simp [setPhase, htm]
        · simp only [setPhase, Function.update_of_ne htm]
          exact h.phase t (ht.resolve_right htm)
    · rw [if_neg hneg] at hs
      cases hs
      exact ⟨h.nodup, h.phase⟩
  · cases hs

theorem Queued.wakeUp {thread : T} (h : s.Queued) (hin : s.WakesInTime (.wakeUp thread))
    (hs : s.step (.wakeUp thread) = some s') : s'.Queued := by
  simp only [SemState.step] at hs
  split at hs
  · cases hs
    refine ⟨h.nodup, fun t ht => ?_⟩
    by_cases htt : t = thread
    · subst htt
      obtain hp | ⟨r, hp⟩ := h.phase t ht
      · exact absurd ht (hin hp)
      · exact .inr ⟨r, by simp [setPhase, hp, Phase.wakeUp]⟩
    · simp only [setPhase, Function.update_of_ne htt]
      exact h.phase t ht
  · cases hs

theorem Queued.interrupt {thread : T} {reason : ℕ} (h : s.Queued)
    (hs : s.step (.interrupt thread reason) = some s') : s'.Queued := by
  simp only [SemState.step] at hs
  split at hs
  · rename_i hr
    cases hs
    refine ⟨h.nodup, fun t ht => ?_⟩
    by_cases htt : t = thread
    · subst htt
      right
      obtain hp | ⟨r, hp⟩ := h.phase t ht
      · obtain ⟨r, rfl⟩ := Nat.exists_eq_succ_of_ne_zero hr
        exact ⟨r, by simp [setPhase, hp, Phase.wakeUp]⟩
      · exact ⟨r, by simp [setPhase, hp, Phase.wakeUp]⟩
    · simp only [setPhase, Function.update_of_ne htt]
      exact h.phase t ht
  · cases hs

theorem Queued.resume {me : T} (h : s.Queued) (hs : s.step (.resume me) = some s') :
    s'.Queued := by
  simp only [SemState.step] at hs
  split at hs
  · rename_i hp
    cases hs
    have hme : me ∉ s.sem.threads := by
      intro hmem
      obtain hq | ⟨r, hq⟩ := h.phase me hmem <;> rw [hp] at hq <;> cases hq
    exact ⟨h.nodup, h.of_subset fun u hu => ⟨hu, fun hum => hme (hum ▸ hu)⟩⟩
  · cases hs
    simp only [Semaphore.interrupted]
    by_cases hme : me ∈ s.sem.threads
    · simp only [if_pos hme, Semaphore.eraseRemoved_of_nodup h.nodup hme]
      refine ⟨h.nodup.filter _, h.of_subset fun u hu => ?_⟩
      simpa using hu
    · simp only [if_neg hme]
      exact ⟨h.nodup, h.of_subset fun u hu => ⟨hu, fun hum => hme (hum ▸ hu)⟩⟩
  · cases hs

theorem Queued.step {e : SemEvent T} (hacc : s.Accounts initial) (h : s.Queued)
    (hin : s.WakesInTime e) (hs : s.step e = some s') : s'.Queued := by
  cases e with
  | wait me => exact h.wait hs
  | test =>
      simp only [SemState.step, Semaphore.test] at hs
      by_cases hpos : 0 < s.sem.signals
      · rw [if_pos hpos] at hs
        cases hs
        exact ⟨h.nodup, h.phase⟩
      · rw [if_neg hpos] at hs
        cases hs
        exact h
  | signal drop =>
      simp only [SemState.step] at hs
      obtain ⟨-, he⟩ | ⟨-, thread, threads, hq, -, he⟩ | ⟨-, -, he⟩ :=
        hacc.balanced.signal_cases drop <;> rw [he] at hs <;> cases hs
      · exact ⟨h.nodup, h.phase⟩
      · have hnodup := h.nodup
        rw [hq] at hnodup
        exact ⟨hnodup.of_cons, fun t ht => h.phase t (hq ▸ List.mem_cons_of_mem _ ht)⟩
      · exact ⟨h.nodup, h.phase⟩
  | wakeUp thread => exact h.wakeUp hin hs
  | interrupt thread reason => exact h.interrupt hs
  | resume me => exact h.resume hs

theorem queued_of_reachable
    (h : ((semaphoreSystem T initial).restrict WakesInTime).Reachable s) : s.Queued := by
  refine h.invariant ?_ fun s e s' hr hI hs =>
    hI.step (accounts_of_reachable hr.of_restrict) hs.1 hs.2
  rintro s rfl
  exact ⟨List.nodup_nil, fun t ht => by simp at ht⟩

end SemState

/-- In every run whose wake-ups are in time, the queue holds exactly the threads the counter misses
signals for, none of them twice, `bug_on` never fires, and no signal completes two waits. -/
theorem semaphore_accounting {T : Type*} [DecidableEq T] (initial : ℕ) {s : SemState T}
    (h : ((semaphoreSystem T initial).restrict SemState.WakesInTime).Reachable s) :
    (s.sem.threads.length : ℤ) = max 0 (-s.sem.signals) ∧ s.sem.threads.Nodup ∧
      s.bug = false ∧ s.completed + s.tested ≤ initial + s.effective := by
  have hacc := SemState.accounts_of_reachable h.of_restrict
  obtain ⟨w, -, hc⟩ := hacc.count
  exact ⟨hacc.balanced, (SemState.queued_of_reachable h).nodup, hacc.noBug, by omega⟩

/-- Thread `0` waits, is interrupted, waits again and is signalled; thread `1` is interrupted after a
signal took it out of the queue. -/
theorem semaphore_accounting_interrupted : ∃ s : SemState ℕ,
    ((semaphoreSystem ℕ 0).restrict SemState.WakesInTime).Reachable s ∧ s.completed = 1 ∧
      (s.sem.threads.length : ℤ) = max 0 (-s.sem.signals) ∧ s.sem.threads.Nodup ∧
      s.bug = false ∧ s.completed + s.tested ≤ 0 + s.effective := by
  have h : ((semaphoreSystem ℕ 0).restrict SemState.WakesInTime).Reachable _ := .ofStep_restrict
    [.wait 0, .interrupt 0 1, .resume 0, .wait 1, .wait 0, .signal false, .interrupt 1 1, .resume 1,
      .wakeUp 1, .signal true, .wakeUp 0, .resume 0] rfl
  exact ⟨_, h, rfl, semaphore_accounting 0 h⟩

/-- A signal takes thread `0` out of the queue, but before its `wake_up` the thread is interrupted,
returns and waits again. The wake-up ends the second wait, and the third one queues the thread a
second time. -/
theorem thread_queued_twice : ∃ s : SemState ℕ, (semaphoreSystem ℕ 0).Reachable s ∧
    s.sem.threads = [0, 0] ∧ ¬s.sem.threads.Nodup :=
  ⟨_, TransitionSystem.Reachable.ofStep
    [.wait 0, .signal false, .interrupt 0 1, .resume 0, .wait 0, .wakeUp 0, .resume 0, .wait 0] rfl,
    rfl, by decide⟩

/-! ## Waiting with a timeout -/

namespace Semaphore

variable {T : Type*}

/-- The milliseconds that `wait_for` sleeps with `ms` left. The minimum is one of signed numbers. -/
def eep (ms : ℕ) : ℕ := if ms < 2 ^ 63 then min ms 10 else ms

theorem eep_pos {ms : ℕ} (h : ms ≠ 0) : 0 < eep ms := by
  rw [eep]
  split <;> omega

/-- `semaphore::wait_for`, with the milliseconds it has slept. `env i` is what the others do to the
semaphore during its `i`-th sleep. -/
def waitFor (env : ℕ → Semaphore T → Semaphore T) (ms : ℕ) (sem : Semaphore T) :
    Semaphore T × Bool × ℕ :=
  if sem.test.2 then (sem.test.1, true, 0)
  else if ms = 0 then (sem.test.1, false, 0)
  else if ms - eep ms = 0 then (env 0 sem.test.1, false, eep ms)
  else
    let (sem, granted, slept) := waitFor (fun i => env (i + 1)) (ms - eep ms) (env 0 sem.test.1)
    (sem, granted, eep ms + slept)
termination_by ms
decreasing_by exact Nat.sub_lt (Nat.pos_of_ne_zero ‹_›) (eep_pos ‹_›)

/-- The semaphore after `k` sleeps of a thread that has taken nothing. -/
def during : (k : ℕ) → (env : ℕ → Semaphore T → Semaphore T) → Semaphore T → Semaphore T
  | 0, _, sem => sem
  | k + 1, env, sem => during k (fun i => env (i + 1)) (env 0 sem)

/-- The number of sleeps in `ms`. -/
def naps (ms : ℕ) : ℕ := if ms < 2 ^ 63 then (ms + 9) / 10 else 1

theorem naps_of_last {ms : ℕ} (hms : ms ≠ 0) (h : ms - eep ms = 0) : naps ms = 1 ∧ eep ms = ms := by
  rw [naps]
  rw [eep] at h ⊢
  split
  · rw [if_pos ‹_›] at h
    omega
  · exact ⟨rfl, rfl⟩

theorem naps_of_more {ms : ℕ} (h : ms - eep ms ≠ 0) :
    naps ms = naps (ms - eep ms) + 1 ∧ naps (ms - eep ms) ≠ 0 ∧ eep ms = 10 ∧
      10 + (ms - eep ms) = ms := by
  have hlt : ms < 2 ^ 63 := by
    by_contra hge
    rw [eep, if_neg hge] at h
    omega
  have heep : eep ms = 10 := by
    rw [eep, if_pos hlt] at h ⊢
    omega
  rw [heep] at h ⊢
  rw [naps, naps, if_pos hlt, if_pos (by omega)]
  omega

theorem not_pos_of_test {sem : Semaphore T} (h : ¬ sem.test.2 = true) :
    ¬ 0 < sem.signals ∧ sem.test.1 = sem := by
  by_cases hpos : 0 < sem.signals
  · rw [test, if_pos hpos] at h
    exact absurd rfl h
  · exact ⟨hpos, by rw [test, if_neg hpos]⟩

theorem pos_of_test {sem : Semaphore T} (h : sem.test.2 = true) : 0 < sem.signals := by
  by_contra hpos
  rw [test, if_neg hpos] at h
  cases h

end Semaphore

end Ilobilix.Lib
