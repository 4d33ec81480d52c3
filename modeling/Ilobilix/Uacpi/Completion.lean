import Ilobilix.Uacpi.Workers

/-!
# Waiting for the uACPI workers

`wait_for_work_completion` returns at once when both queues are empty, and otherwise sleeps until a
worker signals `completed`. Between the test and the sleep the workers go on, and a signal that comes
then is dropped; and the first worker to signal has emptied its own queue only. `Timely` excludes the
two.
-/

namespace Ilobilix.Uacpi

/-- The worker signals `completed` before it waits again. -/
def Worker.owes : Worker → Bool
  | draining b => b
  | running _ | worked => true
  | idle | waiting | passed | notifying => false

/-- The worker neither has the lock of its queue nor a signal to give. -/
def Worker.isIdle : Worker → Bool
  | idle | waiting | passed => true
  | draining _ | running _ | worked | notifying => false

/-- The number of items scheduled before the call. -/
def Caller.before : Caller → ℕ
  | out => 0
  | called before | reading before | tested before | waiting before | returned before => before

namespace AcpiState

/-- The call has returned only after the items scheduled before it were executed. -/
def Answered (s : AcpiState) : Prop :=
  ∀ before, s.caller = .returned before → ∀ i < before, i ∈ s.executed

/-- The caller sleeps, and there is nothing that would wake it. -/
def Hung (s : AcpiState) : Prop :=
  s.completed.threads ≠ [] ∧ ∀ t, s.queue t = [] ∧ (s.worker t).isIdle = true

/-- The item is in a queue or being executed. -/
def Pending (s : AcpiState) (i : ℕ) : Prop := ∃ t, i ∈ s.queue t ∨ s.worker t = .running i

/-- A signal of `completed` is still to come. -/
def Owed (s : AcpiState) : Prop := ∃ t, s.queue t ≠ [] ∨ (s.worker t).owes = true

/-- The caller goes to sleep while a signal is still to come, and when the signal comes no item from
before the call is pending. -/
def Timely (s : AcpiState) : AcpiEvent → Prop
  | .waitCompleted => s.Owed
  | .complete _ => s.completed.threads ≠ [] → ∀ i < s.caller.before, ¬s.Pending i
  | .emplace _ | .signal | .wake _ | .wait _ | .lock _ | .pop _ | .ran _ | .unlock _ => True
  | .wakeCaller _ | .call | .read | .isEmpty => True

/-- What holds of the items and of the caller in every state. -/
structure Known (s : AcpiState) : Prop where
  item : ∀ i < s.scheduled, i ∈ s.executed ∨ s.Pending i
  before : s.caller.before ≤ s.scheduled
  reading : ∀ before, s.caller = .reading before → (s.worker .notify).locks = false

variable {s s' : AcpiState} {e : AcpiEvent} {t : WorkType}

/-- A worker moves while its item, if it has one, stays with it. -/
theorem Pending.move {i : ℕ} (h : s.Pending i) {w₀ w : Worker}
    (hworker : s'.worker = Function.update s.worker t w) (hqueue : s'.queue = s.queue)
    (ht : s.worker t = w₀) (hw₀ : w₀ ≠ .running i) : s'.Pending i := by
  obtain ⟨u, hu | hu⟩ := h
  · exact ⟨u, .inl (hqueue ▸ hu)⟩
  · have hut : u ≠ t := fun heq => hw₀ (ht ▸ heq ▸ hu)
    exact ⟨u, .inr (by rw [hworker, Function.update_of_ne hut, hu])⟩

/-- What can become of a pending item: it is executed. -/
theorem Took.pending (h : s.Took e s') {i : ℕ} (hi : s.Pending i) (hasleep : s.Asleep) :
    i ∈ s'.executed ∨ s'.Pending i := by
  cases h with
  | @emplace t =>
      refine .inr ?_
      obtain ⟨u, hu | hu⟩ := hi
      · refine ⟨u, .inl ?_⟩
        change i ∈ (s.setQueue t _).queue u
        rw [queue_setQueue]
        split
        · rename_i heq
          exact List.mem_append_left _ (heq ▸ hu)
        · exact hu
      · exact ⟨u, .inr hu⟩
  | wake ht => exact .inr (hi.move rfl rfl (hasleep.waiting_of_waking ht) nofun)
  | slept ht | passed ht | lock ht | dropped ht | notified ht | wakeCaller ht =>
      exact .inr (hi.move rfl rfl ht nofun)
  | @unlock t worked ht =>
      exact .inr (hi.move (w := if worked then .worked else .idle) rfl rfl ht nofun)
  | @pop t worked item items ht hq =>
      refine .inr ?_
      obtain ⟨u, hu | hu⟩ := hi
      · by_cases hut : u = t
        · rw [hut, hq, List.mem_cons] at hu
          obtain rfl | hu := hu
          · exact ⟨t, .inr (Function.update_self _ _ _)⟩
          · refine ⟨t, .inl ?_⟩
            change i ∈ (s.setQueue t items).queue t
            rw [queue_setQueue, if_pos rfl]
            exact hu
        · refine ⟨u, .inl ?_⟩
          change i ∈ (s.setQueue t items).queue u
          rw [queue_setQueue, if_neg hut]
          exact hu
      · have hut : u ≠ t := by
          rintro rfl
          rw [ht] at hu
          cases hu
        exact ⟨u, .inr ((Function.update_of_ne hut _ _).trans hu)⟩
  | @ran t item ht =>
      by_cases hitem : i = item
      · exact .inl (hitem ▸ List.mem_append_right _ List.mem_cons_self)
      · refine .inr (hi.move rfl rfl ht fun heq => hitem ?_)
        exact (Worker.running.inj heq).symm
  | counted | woke | call | read | empty | tested | waitCompleted => exact .inr hi

theorem Took.executed_subset (h : s.Took e s') : s.executed ⊆ s'.executed := by
  cases h with
  | ran ht => exact List.subset_append_left _ _
  | emplace | counted | woke | wake | slept | passed | lock | pop | unlock => exact List.Subset.refl _
  | dropped | notified | wakeCaller | call | read | empty | tested | waitCompleted =>
      exact List.Subset.refl _

theorem Known.item_step (h : s.Known) (hasleep : s.Asleep) (hs : s.Took e s') :
    ∀ i < s'.scheduled, i ∈ s'.executed ∨ s'.Pending i := by
  intro i hi
  have hold : i < s.scheduled → i ∈ s'.executed ∨ s'.Pending i := fun hlt =>
    (h.item i hlt).elim (fun hex => .inl (hs.executed_subset hex)) fun hpend =>
      hs.pending hpend hasleep
  cases hs with
  | @emplace t =>
      obtain hlt | heq := Nat.lt_succ_iff_lt_or_eq.mp hi
      · exact hold hlt
      · refine .inr ⟨t, .inl ?_⟩
        change i ∈ (s.setQueue t _).queue t
        rw [queue_setQueue, if_pos rfl, heq]
        exact List.mem_append_right _ List.mem_cons_self
  | counted | woke | wake | slept | passed | lock | pop | ran | unlock => exact hold hi
  | dropped | notified | wakeCaller | call | read | empty | tested | waitCompleted => exact hold hi

theorem Known.before_step (h : s.Known) (hs : s.Took e s') : s'.caller.before ≤ s'.scheduled := by
  have hbefore := h.before
  cases hs with
  | emplace => exact Nat.le_succ_of_le hbefore
  | call => exact le_rfl
  | wakeCaller _ hcaller | read hcaller | empty hcaller | tested hcaller | waitCompleted hcaller =>
      rw [hcaller] at hbefore
      exact hbefore
  | counted | woke | wake | slept | passed | lock | pop | ran | unlock | dropped | notified =>
      exact hbefore

/-- The lock of the first queue while the caller reads it. -/
theorem locks_move {w : Worker} (h : (s.worker .notify).locks = false)
    (hworker : s'.worker = Function.update s.worker t w) (hw : t = .notify → w.locks = false) :
    (s'.worker .notify).locks = false := by
  rw [hworker, Function.update_apply]
  split
  · exact hw (Eq.symm ‹_›)
  · exact h

theorem Known.reading_step (h : s.Known) (hs : s.Took e s') :
    ∀ before, s'.caller = .reading before → (s'.worker .notify).locks = false := by
  intro before hbefore
  cases hs with
  | emplace | counted | woke => exact h.reading before hbefore
  | wake | slept | passed | dropped | notified =>
      exact locks_move (h.reading before hbefore) rfl fun _ => rfl
  | @unlock t worked =>
      refine locks_move (w := if worked then .worked else .idle) (h.reading before hbefore) rfl
        fun _ => ?_
      cases worked <;> rfl
  | @lock t ht hw =>
      refine locks_move (h.reading before hbefore) rfl fun heq => ?_
      have hcaller : s.caller = .reading before := hbefore
      simp [heq, writable, hcaller] at hw
  | pop ht | ran ht =>
      -- the worker has the lock already
      refine locks_move (h.reading before hbefore) rfl fun heq => ?_
      have hlock := h.reading before hbefore
      rw [← heq, ht] at hlock
      cases hlock
  | read _ hlock => exact hlock
  | wakeCaller | call | empty | tested | waitCompleted => cases hbefore

theorem Known.step (h : s.Known) (hasleep : s.Asleep) (hs : s.Took e s') : s'.Known :=
  ⟨h.item_step hasleep hs, h.before_step hs, h.reading_step hs⟩

/-- An answer is on its way or given: the items from before the call are executed. -/
def Settled (s : AcpiState) : Prop :=
  (s.caller.isWaiting = true ∧ s.completed.threads = [] ∨ ∃ before, s.caller = .returned before) →
    ∀ i < s.caller.before, i ∈ s.executed

theorem Settled.mono (h : s.Settled) (hcaller : s'.caller = s.caller)
    (hcompleted : s'.completed.threads = s.completed.threads) (hs : s.executed ⊆ s'.executed) :
    s'.Settled := by
  unfold Settled
  rw [hcaller, hcompleted]
  exact fun hset i hi => hs (h hset i hi)

theorem Settled.step (h : s.Settled) (hknown : s.Known) (hcalled : s.Called) (htimely : s.Timely e)
    (hs : s.Took e s') : s'.Settled := by
  have hsub := hs.executed_subset
  cases hs with
  | emplace | counted | woke | wake | slept | passed | lock | pop | ran | unlock | dropped =>
      exact h.mono rfl rfl hsub
  | notified ht hq =>
      intro _ i hi
      refine (hknown.item i (Nat.lt_of_lt_of_le hi hknown.before)).resolve_right ?_
      exact htimely (hq ▸ nofun) i hi
  | @wakeCaller t before ht hcaller =>
      have hcount := hcalled.count
      have hpos : 0 < s.notifiers := by
        unfold notifiers
        cases t <;> simp only [ht, if_true] <;> omega
      rw [hcaller] at hcount
      simp only [Caller.isWaiting, if_true] at hcount
      intro _ i hi
      refine h (.inl ⟨by rw [hcaller]; rfl, ?_⟩) i (by rw [hcaller]; exact hi)
      rw [← List.length_eq_zero_iff]
      omega
  | @empty before hcaller hlock hq =>
      intro _ i hi
      have hbefore : before ≤ s.scheduled := by
        have := hknown.before
        rw [hcaller] at this
        exact this
      refine (hknown.item i (Nat.lt_of_lt_of_le hi hbefore)).resolve_right ?_
      rintro ⟨u, hu | hu⟩
      · rw [hq u] at hu
        cases hu
      · -- neither worker has the lock of its queue
        have hfree : (s.worker u).locks = false := by
          cases u
          · exact hknown.reading before hcaller
          · exact hlock
        rw [hu] at hfree
        cases hfree
  | call | read | tested => rintro (⟨hw, -⟩ | ⟨before, hret⟩) <;> contradiction
  | waitCompleted =>
      rintro (⟨-, hempty⟩ | ⟨before, hret⟩)
      · exact absurd hempty (by simp)
      · contradiction

/-- A step of a worker that owes no signal, or goes on owing it. -/
theorem Owed.move (h : s.Owed) {w₀ w : Worker} (hworker : s'.worker = Function.update s.worker t w)
    (hqueue : s'.queue = s.queue) (ht : s.worker t = w₀) (hw : w₀.owes = true → w.owes = true) :
    s'.Owed := by
  obtain ⟨u, hu | hu⟩ := h
  · exact ⟨u, .inl (hqueue ▸ hu)⟩
  · refine ⟨u, .inr ?_⟩
    rw [hworker, Function.update_apply]
    split
    · rename_i heq
      exact hw (by rw [← ht, ← heq]; exact hu)
    · exact hu

/-- A sleeping caller is owed a signal. -/
theorem owed_step (h : s.completed.threads ≠ [] → s.Owed) (hasleep : s.Asleep) (hcalled : s.Called)
    (htimely : s.Timely e) (hs : s.Took e s') : s'.completed.threads ≠ [] → s'.Owed := by
  intro hthreads
  cases hs with
  | @emplace t =>
      refine ⟨t, .inl ?_⟩
      change (s.setQueue t _).queue t ≠ []
      rw [queue_setQueue, if_pos rfl]
      simp
  | counted | woke | call | read | empty | tested => exact h hthreads
  | wake ht => exact (h hthreads).move rfl rfl (hasleep.waiting_of_waking ht) nofun
  | slept ht | passed ht | lock ht | wakeCaller ht => exact (h hthreads).move rfl rfl ht nofun
  | pop ht => exact ⟨_, .inr (by rw [worker_setWorker, if_pos rfl]; rfl)⟩
  | @ran t item ht => exact (h hthreads).move rfl rfl ht fun _ => rfl
  | @unlock t worked ht =>
      refine (h hthreads).move (w := if worked then .worked else .idle) rfl rfl ht fun hw => ?_
      rw [show worked = true from hw]
      rfl
  | dropped ht hq => exact absurd hq hthreads
  | @notified t threads ht hq =>
      -- only one thread can have been in the queue
      have hcount := hcalled.count
      rw [hq, List.length_cons] at hcount
      have hempty : threads = [] := by
        rw [← List.length_eq_zero_iff]
        split at hcount <;> omega
      exact absurd hempty hthreads
  | waitCompleted => exact htimely

theorem not_hung (h : s.completed.threads ≠ [] → s.Owed) : ¬s.Hung := by
  rintro ⟨hthreads, hidle⟩
  obtain ⟨t, hq | howes⟩ := h hthreads
  · exact hq (hidle t).1
  · have := (hidle t).2
    cases hw : s.worker t <;> rw [hw] at this howes <;> contradiction

end AcpiState

open AcpiState

theorem reachable_known {s : AcpiState} (h : acpiSystem.Reachable s) : s.Known := by
  refine h.invariant ?_ fun s e s' hs hknown hstep => ?_
  · rintro s rfl
    exact ⟨fun i hi => absurd hi (Nat.not_lt_zero i), le_rfl, nofun⟩
  · exact hknown.step (reachable_asleep hs).1 (took_of_reachable hs hstep)

/-- If the caller goes to sleep only while a signal is still to come, and a signal comes only when no
item from before the call is pending, the call returns only after these items were executed and the
caller does not sleep with nothing left to do. -/
theorem completion_wait {s : AcpiState} (h : (acpiSystem.restrict Timely).Reachable s) :
    s.Answered ∧ ¬s.Hung := by
  have hinv : s.Settled ∧ (s.completed.threads ≠ [] → s.Owed) := by
    refine h.invariant (I := fun s => s.Settled ∧ (s.completed.threads ≠ [] → s.Owed)) ?_
      fun s e s' hs ⟨hsettled, howed⟩ ⟨htimely, hstep⟩ => ?_
    · rintro s rfl
      exact ⟨fun _ i hi => absurd hi (Nat.not_lt_zero i), fun hne => absurd rfl hne⟩
    · have hreach := hs.of_restrict
      obtain ⟨hasleep, hcalled⟩ := reachable_asleep hreach
      have htook := took_of_reachable hreach hstep
      exact ⟨hsettled.step (reachable_known hreach) hcalled htimely htook,
        owed_step howed hasleep hcalled htimely htook⟩
  refine ⟨fun before hcaller i hi => ?_, not_hung hinv.2⟩
  exact hinv.1 (.inr ⟨before, hcaller⟩) i (by rw [hcaller]; exact hi)

/-- The call of a thread that sleeps until the event it waits for has been executed. -/
theorem completion_wait_answered : ∃ s, (acpiSystem.restrict Timely).Reachable s ∧
    s.caller = .returned 1 ∧ s.executed = [0] ∧ s.Answered ∧ ¬s.Hung := by
  have h₀ : (acpiSystem.restrict Timely).Reachable start := .init rfl
  have h₁ := h₀.step (l := AcpiEvent.emplace .gpe) ⟨trivial, rfl⟩
  have h₂ := h₁.step (l := AcpiEvent.signal) ⟨trivial, rfl⟩
  have h₃ := h₂.step (l := AcpiEvent.call) ⟨trivial, rfl⟩
  have h₄ := h₃.step (l := AcpiEvent.read) ⟨trivial, rfl⟩
  have h₅ := h₄.step (l := AcpiEvent.isEmpty) ⟨trivial, rfl⟩
  have h₆ := h₅.step (l := AcpiEvent.waitCompleted) ⟨⟨.gpe, .inl nofun⟩, rfl⟩
  have h₇ := h₆.step (l := AcpiEvent.wait .gpe) ⟨trivial, rfl⟩
  have h₈ := h₇.step (l := AcpiEvent.lock .gpe) ⟨trivial, rfl⟩
  have h₉ := h₈.step (l := AcpiEvent.pop .gpe) ⟨trivial, rfl⟩
  have h₁₀ := h₉.step (l := AcpiEvent.ran .gpe) ⟨trivial, rfl⟩
  have h₁₁ := h₁₀.step (l := AcpiEvent.unlock .gpe) ⟨trivial, rfl⟩
  have h₁₂ := h₁₁.step (l := AcpiEvent.complete .gpe) ⟨fun _ i _ => ?_, rfl⟩
  have h₁₃ := h₁₂.step (l := AcpiEvent.wakeCaller .gpe) ⟨trivial, rfl⟩
  · exact ⟨_, h₁₃, rfl, rfl, completion_wait h₁₃⟩
  · rintro ⟨u, hu | hu⟩ <;> cases u <;> cases hu

/-- The caller is woken when the other worker is done, and the caller misses the signal between its
test and its sleep. -/
theorem completion_wait_fails : (¬∀ s, acpiSystem.Reachable s → s.Answered) ∧
    ¬∀ s, acpiSystem.Reachable s → ¬s.Hung := by
  constructor
  · intro hall
    have h : acpiSystem.Reachable _ := .ofStep
      [.emplace .gpe, .signal, .emplace .notify, .signal, .call, .read, .isEmpty, .waitCompleted,
        .wait .gpe, .lock .gpe, .pop .gpe, .ran .gpe, .unlock .gpe, .complete .gpe,
        .wakeCaller .gpe] rfl
    exact absurd (hall _ h 2 rfl 1 (by decide)) (by decide)
  · intro hall
    have h : acpiSystem.Reachable _ := .ofStep
      [.emplace .gpe, .signal, .call, .read, .isEmpty, .wait .gpe, .lock .gpe, .pop .gpe, .ran .gpe,
        .unlock .gpe, .complete .gpe, .waitCompleted] rfl
    refine hall _ h ⟨nofun, fun t => ?_⟩
    cases t <;> exact ⟨rfl, rfl⟩

end Ilobilix.Uacpi
