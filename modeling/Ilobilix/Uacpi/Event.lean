import Ilobilix.Foundation.Transition
import Mathlib.Algebra.GroupWithZero.Nat
import Mathlib.Logic.Function.Basic

/-!
# uACPI events

A `simple_event` is a counter. `uacpi_kernel_signal_event` raises it, `uacpi_kernel_reset_event` sets it
to zero, and `uacpi_kernel_wait_for_event` takes one from it with a compare exchange, and sleeps for
10 ms whenever it finds zero, until it has done so for as long as its timeout says.

Threads and interrupt handlers use an event without a lock. A step is one access of the counter, and
between the load in `decrement` and its compare exchange anything can happen to the counter.
-/

namespace Ilobilix.Uacpi

/-- Where a thread is in `wait_for_event`, with the variable `value`: `none` is a wait without
timeout. -/
inductive WaitPc
  | out
  /-- at the load in `decrement` -/
  | load (value : Option ℤ)
  /-- at the compare exchange, with the value that was loaded -/
  | exchange (value : Option ℤ) (seen : ℕ)
  /-- in `uacpi_kernel_sleep (10)` -/
  | sleeping (value : Option ℤ)
  | returned (granted : Bool)
deriving DecidableEq

/-- A thread that waits, with the timeout of its last call. Of that call, `zeros` counts the loads that
found zero and `sleeps` the sleeps; `failures` are the compare exchanges that failed in all calls. -/
structure Waiter where
  pc : WaitPc
  timeout : UInt16
  zeros : ℕ
  sleeps : ℕ
  failures : ℕ

def Waiter.new : Waiter := ⟨.out, 0, 0, 0, 0⟩

/-- An event with its waiters. `signals` and `taken` count the signals and the granted waits since the
last reset, `changes` the changes of the counter. -/
structure EventState (T : Type*) where
  counter : ℕ
  waiter : T → Waiter
  signals : ℕ
  taken : ℕ
  changes : ℕ

inductive EventStep (T : Type*)
  | wait (t : T) (timeout : UInt16)
  | load (t : T)
  | exchange (t : T)
  | wake (t : T)
  | signal
  | reset

namespace EventState

variable {T : Type*} [DecidableEq T]

def new : EventState T := ⟨0, fun _ => .new, 0, 0, 0⟩

def setWaiter (s : EventState T) (t : T) (w : Waiter) : EventState T :=
  { s with waiter := Function.update s.waiter t w }

/-- The variable `value` at the start of a wait. -/
def value (timeout : UInt16) : Option ℤ := if timeout = 0xFFFF then none else some timeout.toNat

/-- What a wait does when `decrement` returns false. -/
def refuse : Option ℤ → WaitPc
  | none => .sleeping none
  | some value => if value ≤ 0 then .returned false else .sleeping (some value)

def step (s : EventState T) : EventStep T → Option (EventState T)
  | .wait t timeout =>
      let w := s.waiter t
      match w.pc with
      | .out | .returned _ => some (s.setWaiter t ⟨.load (value timeout), timeout, 0, 0, w.failures⟩)
      | .load _ | .exchange _ _ | .sleeping _ => none
  | .load t =>
      let w := s.waiter t
      match w.pc with
      | .load value =>
          if s.counter = 0 then some (s.setWaiter t { w with pc := refuse value, zeros := w.zeros + 1 })
          else some (s.setWaiter t { w with pc := .exchange value s.counter })
      | .out | .exchange _ _ | .sleeping _ | .returned _ => none
  | .exchange t =>
      let w := s.waiter t
      match w.pc with
      | .exchange value seen =>
          if s.counter = seen then
            some { s.setWaiter t { w with pc := .returned true } with
              counter := seen - 1
              taken := s.taken + 1
              changes := s.changes + 1 }
          else some (s.setWaiter t { w with pc := .load value, failures := w.failures + 1 })
      | .out | .load _ | .sleeping _ | .returned _ => none
  | .wake t =>
      let w := s.waiter t
      match w.pc with
      | .sleeping value =>
          some (s.setWaiter t { w with pc := .load (value.map (· - 10)), sleeps := w.sleeps + 1 })
      | .out | .load _ | .exchange _ _ | .returned _ => none
  | .signal =>
      some { s with
        counter := (s.counter + 1) % 2 ^ 64
        signals := s.signals + 1
        changes := s.changes + 1 }
  | .reset => some { s with counter := 0, signals := 0, taken := 0, changes := s.changes + 1 }

end EventState

/-- Any number of threads that wait for an event, and any number of signals and resets. -/
def eventSystem (T : Type*) [DecidableEq T] : TransitionSystem (EventState T) (EventStep T) :=
  .ofStep .new EventState.step

/-! ## What a step does -/

namespace EventState

variable {T : Type*} [DecidableEq T] {s s' : EventState T} {t : T}

/-- The transitions with their guards. -/
inductive Moves (s : EventState T) : EventState T → Prop
  | wait (t : T) (timeout : UInt16) :
      Moves s (s.setWaiter t ⟨.load (value timeout), timeout, 0, 0, (s.waiter t).failures⟩)
  | zero {t : T} {value : Option ℤ} (h : (s.waiter t).pc = .load value) (hz : s.counter = 0) :
      Moves s (s.setWaiter t
        { s.waiter t with pc := refuse value, zeros := (s.waiter t).zeros + 1 })
  | load {t : T} {value : Option ℤ} (h : (s.waiter t).pc = .load value) (hz : s.counter ≠ 0) :
      Moves s (s.setWaiter t { s.waiter t with pc := .exchange value s.counter })
  | take {t : T} {value : Option ℤ} (h : (s.waiter t).pc = .exchange value s.counter) :
      Moves s { s.setWaiter t { s.waiter t with pc := .returned true } with
        counter := s.counter - 1
        taken := s.taken + 1
        changes := s.changes + 1 }
  | fail {t : T} {value : Option ℤ} {seen : ℕ} (h : (s.waiter t).pc = .exchange value seen)
      (hne : s.counter ≠ seen) :
      Moves s (s.setWaiter t
        { s.waiter t with pc := .load value, failures := (s.waiter t).failures + 1 })
  | wake {t : T} {value : Option ℤ} (h : (s.waiter t).pc = .sleeping value) :
      Moves s (s.setWaiter t
        { s.waiter t with pc := .load (value.map (· - 10)), sleeps := (s.waiter t).sleeps + 1 })
  | signal :
      Moves s { s with
        counter := (s.counter + 1) % 2 ^ 64
        signals := s.signals + 1
        changes := s.changes + 1 }
  | reset : Moves s { s with counter := 0, signals := 0, taken := 0, changes := s.changes + 1 }

theorem moves_of_step {l : EventStep T} (h : s.step l = some s') : s.Moves s' := by
  cases l with
  | wait t timeout =>
      simp only [step] at h
      split at h
      · cases h
        exact .wait t timeout
      · cases h
        exact .wait t timeout
      all_goals cases h
  | load t =>
      simp only [step] at h
      split at h
      · rename_i value hpc
        split at h
        · cases h
          exact .zero hpc ‹_›
        · cases h
          exact .load hpc ‹_›
      all_goals cases h
  | exchange t =>
      simp only [step] at h
      split at h
      · rename_i value seen hpc
        split at h
        · rename_i hseen
          cases h
          subst hseen
          exact .take hpc
        · cases h
          exact .fail hpc ‹_›
      all_goals cases h
  | wake t =>
      simp only [step] at h
      split at h
      · rename_i value hpc
        cases h
        exact .wake hpc
      all_goals cases h
  | signal =>
      cases h
      exact .signal
  | reset =>
      cases h
      exact .reset

theorem setWaiter_pc (s : EventState T) (t : T) (w : Waiter) :
    ((s.setWaiter t w).waiter t).pc = w.pc := by
  simp [setWaiter]

theorem invariant {I : EventState T → Prop} (h₀ : I .new)
    (hmoves : ∀ s s', I s → s.Moves s' → I s') (h : (eventSystem T).Reachable s) : I s := by
  refine h.invariant (fun s hs => ?_) fun s l s' _ hI hstep => hmoves s s' hI (moves_of_step hstep)
  cases hs
  exact h₀

/-- What holds of all waiters still does if it holds of the one that moves. -/
theorem forall_setWaiter {P : Waiter → Prop} (h : ∀ u, P (s.waiter u)) {w : Waiter} (hw : P w) (u : T) :
    P ((s.setWaiter t w).waiter u) := by
  revert u
  exact (Function.forall_update_iff s.waiter fun _ => P).mpr ⟨hw, fun u _ => h u⟩

/-! ## Accounting -/

theorem refuse_ne_exchange (value value' : Option ℤ) (seen : ℕ) :
    refuse value ≠ .exchange value' seen := by
  cases value with
  | none => simp [refuse]
  | some value =>
      rw [refuse]
      split <;> simp

/-- The counter is what the signals since the last reset have put into it less what the waits have
taken out. What a compare exchange expects is never zero. -/
structure Counted (s : EventState T) : Prop where
  seen : ∀ t value seen, (s.waiter t).pc = .exchange value seen → seen ≠ 0
  lt : s.counter < 2 ^ 64
  sum : ∃ wraps, s.counter + s.taken + wraps * 2 ^ 64 = s.signals

theorem Counted.setWaiter (h : s.Counted) {w : Waiter}
    (hw : ∀ value seen, w.pc = .exchange value seen → seen ≠ 0) : (s.setWaiter t w).Counted :=
  ⟨forall_setWaiter (P := fun w => ∀ value seen, w.pc = .exchange value seen → seen ≠ 0) h.seen hw,
    h.lt, h.sum⟩

theorem Counted.moves (h : s.Counted) (hm : s.Moves s') : s'.Counted := by
  obtain ⟨wraps, hsum⟩ := h.sum
  cases hm with
  | wait | fail | wake => exact h.setWaiter (by simp)
  | zero => exact h.setWaiter fun value' seen hpc => absurd hpc (refuse_ne_exchange _ value' seen)
  | load _ hz =>
      refine h.setWaiter fun value' seen hpc => ?_
      cases hpc
      exact hz
  | @take t value hpc =>
      have hpos := h.seen _ _ _ hpc
      have hset := h.setWaiter (t := t) (w := { s.waiter t with pc := .returned true }) (by simp)
      refine ⟨hset.seen, Nat.lt_of_le_of_lt (Nat.sub_le _ _) h.lt, wraps, ?_⟩
      simp only [EventState.setWaiter]
      omega
  | signal =>
      refine ⟨h.seen, Nat.mod_lt _ (by decide), wraps + (s.counter + 1) / 2 ^ 64, ?_⟩
      dsimp only
      omega
  | reset => exact ⟨h.seen, Nat.two_pow_pos 64, 0, rfl⟩

theorem counted (h : (eventSystem T).Reachable s) : s.Counted :=
  invariant ⟨by simp [new, Waiter.new], Nat.two_pow_pos 64, 0, rfl⟩ (fun _ _ => Counted.moves) h

/-- No signal is lost and none is taken twice, however the accesses of the counter alternate: the waits
that were granted since the last reset are never more than the signals, and together with the counter
they make up the signals, as long as these are fewer than `2 ^ 64`. -/
theorem signals_accounted (h : (eventSystem T).Reachable s) :
    s.taken ≤ s.signals ∧ (s.signals < 2 ^ 64 → s.counter + s.taken = s.signals) := by
  obtain ⟨wraps, hsum⟩ := (counted h).sum
  exact ⟨by omega, fun hlt => by omega⟩

/-- Two threads have loaded the one signal, and one takes it. -/
theorem signals_accounted_race : ∃ s : EventState Bool, s.signals = 1 ∧
    (s.waiter true).pc = .returned true ∧ (s.waiter false).pc = .load (some 15) ∧
    s.taken ≤ s.signals ∧ (s.signals < 2 ^ 64 → s.counter + s.taken = s.signals) := by
  have h : (eventSystem Bool).Reachable _ := .ofStep [.signal, .wait true 0, .wait false 15,
    .load true, .load false, .exchange true, .exchange false] rfl
  exact ⟨_, rfl, rfl, rfl, signals_accounted h⟩

/-! ## Timeouts -/

end EventState

/-- What the variable `value` says about the sleeps of a call. -/
def Waiter.Timed (w : Waiter) : Prop :=
  match w.pc with
  | .out => True
  | .load none | .exchange none _ => w.zeros = w.sleeps ∧ w.timeout = 0xFFFF
  | .sleeping none => w.zeros = w.sleeps + 1 ∧ w.timeout = 0xFFFF
  | .load (some value) | .exchange (some value) _ =>
      w.zeros = w.sleeps ∧ w.timeout ≠ 0xFFFF ∧ value = w.timeout.toNat - 10 * w.sleeps ∧ -10 < value
  | .sleeping (some value) =>
      w.zeros = w.sleeps + 1 ∧ w.timeout ≠ 0xFFFF ∧ value = w.timeout.toNat - 10 * w.sleeps ∧
        0 < value
  | .returned true =>
      w.zeros = w.sleeps ∧ (w.timeout ≠ 0xFFFF → w.sleeps ≤ (w.timeout.toNat + 9) / 10)
  | .returned false =>
      w.zeros = w.sleeps + 1 ∧ w.timeout ≠ 0xFFFF ∧ w.sleeps = (w.timeout.toNat + 9) / 10

namespace Waiter.Timed

variable {w : Waiter} {value : Option ℤ} {seen : ℕ}

theorem called (timeout : UInt16) (failures : ℕ) :
    Timed ⟨.load (EventState.value timeout), timeout, 0, 0, failures⟩ := by
  rw [EventState.value]
  split
  · exact ⟨rfl, ‹_›⟩
  · exact ⟨rfl, ‹_›, by simp, by omega⟩

theorem loaded (h : w.Timed) (hpc : w.pc = .load value) (seen : ℕ) :
    Timed { w with pc := .exchange value seen } := by
  rw [Timed, hpc] at h
  cases value with
  | none => exact h
  | some value => exact h

theorem failed (h : w.Timed) (hpc : w.pc = .exchange value seen) (failures : ℕ) :
    Timed { w with pc := .load value, failures := failures } := by
  rw [Timed, hpc] at h
  cases value with
  | none => exact h
  | some value => exact h

theorem granted (h : w.Timed) (hpc : w.pc = .exchange value seen) :
    Timed { w with pc := .returned true } := by
  rw [Timed, hpc] at h
  cases value with
  | none => exact ⟨h.1, fun hne => absurd h.2 hne⟩
  | some value =>
      obtain ⟨hzeros, -, hvalue, hlow⟩ := h
      refine ⟨hzeros, fun _ => ?_⟩
      dsimp only
      omega

theorem refused (h : w.Timed) (hpc : w.pc = .load value) :
    Timed { w with pc := EventState.refuse value, zeros := w.zeros + 1 } := by
  rw [Timed, hpc] at h
  cases value with
  | none => exact ⟨congrArg (· + 1) h.1, h.2⟩
  | some value =>
      obtain ⟨hzeros, htimeout, hvalue, hlow⟩ := h
      rw [EventState.refuse]
      split
      · refine ⟨congrArg (· + 1) hzeros, htimeout, ?_⟩
        dsimp only
        omega
      · exact ⟨congrArg (· + 1) hzeros, htimeout, hvalue, by omega⟩

theorem woken (h : w.Timed) (hpc : w.pc = .sleeping value) :
    Timed { w with pc := .load (value.map (· - 10)), sleeps := w.sleeps + 1 } := by
  rw [Timed, hpc] at h
  cases value with
  | none => exact h
  | some value =>
      obtain ⟨hzeros, htimeout, hvalue, hpos⟩ := h
      refine ⟨hzeros, htimeout, ?_, ?_⟩
      · dsimp only
        omega
      · dsimp only
        omega

end Waiter.Timed

/-- The failures of a thread are no more than the changes of the counter, and fewer while it does not
know the last one. -/
def Waiter.Paid (counter changes : ℕ) (w : Waiter) : Prop :=
  w.failures ≤ changes ∧
    ∀ value seen, w.pc = .exchange value seen → counter ≠ seen → w.failures < changes

theorem Waiter.paid_of_ne {counter changes : ℕ} {w : Waiter} (hle : w.failures ≤ changes)
    (hpc : ∀ value seen, w.pc ≠ .exchange value seen) : w.Paid counter changes :=
  ⟨hle, fun value seen h => absurd h (hpc value seen)⟩

namespace EventState

variable {T : Type*} [DecidableEq T] {s s' : EventState T} {t : T}

theorem timed_of_moves (h : ∀ u, (s.waiter u).Timed) (hm : s.Moves s') (u : T) :
    (s'.waiter u).Timed := by
  cases hm with
  | wait t timeout => exact forall_setWaiter h (.called timeout _) u
  | zero hpc => exact forall_setWaiter h ((h _).refused hpc) u
  | load hpc => exact forall_setWaiter h ((h _).loaded hpc _) u
  | take hpc => exact forall_setWaiter h ((h _).granted hpc) u
  | fail hpc => exact forall_setWaiter h ((h _).failed hpc _) u
  | wake hpc => exact forall_setWaiter h ((h _).woken hpc) u
  | signal | reset => exact h u

/-- A wait that returns false had a timeout, has slept once for every 10 ms that the timeout begins, and
has found the counter at zero before, between and after the sleeps. A wait that is granted has found it
at zero before each of its sleeps, and with a timeout it has slept no more often. -/
theorem timeout_sleeps (h : (eventSystem T).Reachable s) (t : T) :
    let w := s.waiter t
    (w.pc = .returned false →
      w.timeout ≠ 0xFFFF ∧ w.sleeps = (w.timeout.toNat + 9) / 10 ∧ w.zeros = w.sleeps + 1) ∧
    (w.pc = .returned true →
      w.zeros = w.sleeps ∧ (w.timeout ≠ 0xFFFF → w.sleeps ≤ (w.timeout.toNat + 9) / 10)) := by
  have ht := invariant (I := fun s => ∀ u, (s.waiter u).Timed) (fun _ => trivial)
    (fun _ _ => timed_of_moves) h t
  refine ⟨fun hpc => ?_, fun hpc => ?_⟩
  · rw [Waiter.Timed, hpc] at ht
    exact ⟨ht.2.1, ht.2.2, ht.1⟩
  · rw [Waiter.Timed, hpc] at ht
    exact ht

theorem timeout_sleeps_15 : ∃ s : EventState Unit,
    (s.waiter ()).pc = .returned false ∧ (s.waiter ()).sleeps = 2 ∧
    let w := s.waiter ()
    (w.pc = .returned false →
      w.timeout ≠ 0xFFFF ∧ w.sleeps = (w.timeout.toNat + 9) / 10 ∧ w.zeros = w.sleeps + 1) ∧
    (w.pc = .returned true →
      w.zeros = w.sleeps ∧ (w.timeout ≠ 0xFFFF → w.sleeps ≤ (w.timeout.toNat + 9) / 10)) := by
  have h : (eventSystem Unit).Reachable _ := .ofStep [.wait () 15, .load (), .wake (), .load (),
    .wake (), .load ()] rfl
  exact ⟨_, rfl, rfl, timeout_sleeps h ()⟩

end EventState

/-- `uacpi_kernel_stall`, in nanoseconds. -/
def uacpiKernelStall (usec : UInt8) : ℕ := usec.toNat * 1000

/-- `uacpi_kernel_sleep`, in nanoseconds. Without the scheduler it stalls, for a time that has to fit into
eight bits. -/
def uacpiKernelSleep (initialised : Bool) (msec : UInt64) : ℕ :=
  if initialised then msec.toNat * 1000000 else uacpiKernelStall (msec * 1000).toUInt8

theorem uacpiKernelSleep_early : uacpiKernelSleep false 10 = 16000 := rfl

theorem uacpiKernelSleep_late : uacpiKernelSleep true 10 = 10000000 := rfl

namespace EventState

variable {T : Type*} [DecidableEq T] {s s' : EventState T} {t : T}

/-- A wait that returns false has slept for at least its timeout if the scheduler does the sleeping.
Without the scheduler it has stalled for at most a fiftieth of it. -/
theorem timeout_time (h : (eventSystem T).Reachable s) (hpc : (s.waiter t).pc = .returned false) :
    let w := s.waiter t
    w.timeout.toNat * 1000000 ≤ w.sleeps * uacpiKernelSleep true 10 ∧
      50 * (w.sleeps * uacpiKernelSleep false 10) ≤ w.timeout.toNat * 1000000 := by
  obtain ⟨-, hsleeps, -⟩ := (timeout_sleeps h t).1 hpc
  dsimp only
  rw [hsleeps, uacpiKernelSleep_late, uacpiKernelSleep_early]
  omega

theorem timeout_time_15 : ∃ s : EventState Unit, (s.waiter ()).timeout = 15 ∧
    let w := s.waiter ()
    w.timeout.toNat * 1000000 ≤ w.sleeps * uacpiKernelSleep true 10 ∧
      50 * (w.sleeps * uacpiKernelSleep false 10) ≤ w.timeout.toNat * 1000000 := by
  have h : (eventSystem Unit).Reachable _ := .ofStep [.wait () 15, .load (), .wake (), .load (),
    .wake (), .load ()] rfl
  exact ⟨_, rfl, timeout_time h rfl⟩

/-! ## Progress -/

theorem paid_of_moves (h : ∀ u, (s.waiter u).Paid s.counter s.changes) (hm : s.Moves s') (u : T) :
    (s'.waiter u).Paid s'.counter s'.changes := by
  have hchange (counter : ℕ) (u : T) : (s.waiter u).Paid counter (s.changes + 1) :=
    ⟨Nat.le_succ_of_le (h u).1, fun _ _ _ _ => Nat.lt_succ_of_le (h u).1⟩
  have hset (t : T) (w : Waiter) (hw : w.Paid s.counter s.changes) :
      ((s.setWaiter t w).waiter u).Paid s.counter s.changes := forall_setWaiter h hw u
  cases hm with
  | wait t | @wake t => exact hset t _ (Waiter.paid_of_ne (h t).1 (by simp))
  | @zero t => exact hset t _ (Waiter.paid_of_ne (h t).1 (refuse_ne_exchange _))
  | @load t =>
      -- what it expects now is what the counter is
      refine hset t _ ⟨(h t).1, fun value' seen hpc hne => ?_⟩
      cases hpc
      exact absurd rfl hne
  | @take t =>
      refine forall_setWaiter (P := Waiter.Paid (s.counter - 1) (s.changes + 1)) (hchange _) ?_ u
      exact Waiter.paid_of_ne (hchange 0 t).1 (by simp)
  | @fail t value seen hpc hne =>
      exact hset t _ (Waiter.paid_of_ne ((h t).2 value seen hpc hne) (by simp))
  | signal | reset => exact hchange _ u

/-- The steps grant the wait of the thread. -/
def Grants (s : EventState T) (t : T) (tr : List (EventStep T)) : Prop :=
  ∃ s', tr.foldlM step s = some s' ∧ (s'.waiter t).pc = .returned true ∧ s'.counter + 1 = s.counter

theorem Grants.cons {l : EventStep T} {tr : List (EventStep T)} {w : Waiter}
    (hstep : s.step l = some (s.setWaiter t w)) (h : (s.setWaiter t w).Grants t tr) :
    s.Grants t (l :: tr) := by
  rw [Grants, List.foldlM_cons, hstep]
  exact h

theorem grants_exchange {value : Option ℤ} (hpos : s.counter ≠ 0)
    (hpc : (s.waiter t).pc = .exchange value s.counter) : s.Grants t [.exchange t] := by
  have hstep : s.step (.exchange t) = some { s.setWaiter t { s.waiter t with pc := .returned true } with
      counter := s.counter - 1, taken := s.taken + 1, changes := s.changes + 1 } := by
    simp only [step, hpc, if_true]
  refine ⟨_, (List.foldlM_cons ..).trans (congrArg (· >>= _) hstep), ?_, ?_⟩
  · exact setWaiter_pc s t { s.waiter t with pc := .returned true }
  · exact Nat.sub_add_cancel (Nat.pos_of_ne_zero hpos)

theorem grants_load {value : Option ℤ} (hpos : s.counter ≠ 0) (hpc : (s.waiter t).pc = .load value) :
    s.Grants t [.load t, .exchange t] := by
  have hstep : s.step (.load t) =
      some (s.setWaiter t { s.waiter t with pc := .exchange value s.counter }) := by
    simp only [step, hpc, if_neg hpos]
  exact .cons hstep (grants_exchange hpos (setWaiter_pc s t _))

/-- A thread that runs alone takes one from a counter that is not zero. -/
theorem grants_alone (hpos : s.counter ≠ 0) (hout : (s.waiter t).pc ≠ .out)
    (hreturned : ∀ granted, (s.waiter t).pc ≠ .returned granted) :
    s.Grants t [.exchange t] ∨ s.Grants t [.load t, .exchange t] ∨
      s.Grants t [.exchange t, .load t, .exchange t] ∨ s.Grants t [.wake t, .load t, .exchange t] := by
  cases hpc : (s.waiter t).pc with
  | out => exact absurd hpc hout
  | returned granted => exact absurd hpc (hreturned granted)
  | load value => exact .inr (.inl (grants_load hpos hpc))
  | sleeping value =>
      have hstep : s.step (.wake t) = some (s.setWaiter t { s.waiter t with
          pc := .load (value.map (· - 10)), sleeps := (s.waiter t).sleeps + 1 }) := by
        simp only [step, hpc]
      exact .inr (.inr (.inr (.cons hstep (grants_load hpos (setWaiter_pc s t _)))))
  | exchange value seen =>
      by_cases hseen : s.counter = seen
      · subst hseen
        exact .inl (grants_exchange hpos hpc)
      · have hstep : s.step (.exchange t) = some (s.setWaiter t { s.waiter t with
            pc := .load value, failures := (s.waiter t).failures + 1 }) := by
          simp only [step, hpc, if_neg hseen]
        exact .inr (.inr (.inl (.cons hstep (grants_load hpos (setWaiter_pc s t _)))))

/-- The loop in `decrement` is lock-free: a thread goes through it again only after the counter has been
changed, by a signal, a reset or a wait that was granted. A thread in a call that runs alone while the
counter is not zero is granted its wait in at most three steps. -/
theorem decrement_lock_free (h : (eventSystem T).Reachable s) (t : T) :
    (s.waiter t).failures ≤ s.changes ∧
    (s.counter ≠ 0 → (s.waiter t).pc ≠ .out → (∀ granted, (s.waiter t).pc ≠ .returned granted) →
      s.Grants t [.exchange t] ∨ s.Grants t [.load t, .exchange t] ∨
        s.Grants t [.exchange t, .load t, .exchange t] ∨
        s.Grants t [.wake t, .load t, .exchange t]) := by
  have hpaid := invariant (I := fun s => ∀ u, (s.waiter u).Paid s.counter s.changes)
    (fun _ => Waiter.paid_of_ne (Nat.le_refl 0) (by simp [new, Waiter.new]))
    (fun _ _ => paid_of_moves) h t
  exact ⟨hpaid.1, grants_alone⟩

theorem decrement_lock_free_race : ∃ s : EventState Bool,
    (s.waiter false).failures = 1 ∧ s.changes = 2 ∧
    (s.waiter false).failures ≤ s.changes ∧
    (s.counter ≠ 0 → (s.waiter false).pc ≠ .out →
      (∀ granted, (s.waiter false).pc ≠ .returned granted) →
      s.Grants false [.exchange false] ∨ s.Grants false [.load false, .exchange false] ∨
        s.Grants false [.exchange false, .load false, .exchange false] ∨
        s.Grants false [.wake false, .load false, .exchange false]) := by
  have h : (eventSystem Bool).Reachable _ := .ofStep [.signal, .wait true 0, .wait false 15,
    .load true, .load false, .exchange true, .exchange false] rfl
  exact ⟨_, rfl, rfl, decrement_lock_free h false⟩

end EventState

end Ilobilix.Uacpi
