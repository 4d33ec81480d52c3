import Mathlib.Logic.Relation

/-!
# Transition systems

A `TransitionSystem` has initial states and labelled steps. `Reachable` is the set of states some
run leads to, and `Reachable.invariant` is the only induction over runs that the developments on top
of it use: a property is proved of the initial states and of one step.

`restrict` keeps the steps that meet a condition on the label and the state before the step. A
result of the form "in every run whose steps all meet the condition" is a result about the reachable
states of a restricted system.

`Run` keeps the labels of a run. A system refines another one when every run has a run of the other
with the same labels, and `Run.simulates` proves that from a simulation of single steps.
-/

/-- States with an initial predicate and steps labelled by the operation performed. -/
structure TransitionSystem (σ : Type*) (ℓ : Type*) where
  init : σ → Prop
  step : σ → ℓ → σ → Prop

namespace TransitionSystem

variable {σ ℓ : Type*}

/-- The states some finite run of the system leads to. -/
inductive Reachable (T : TransitionSystem σ ℓ) : σ → Prop
  | init {s : σ} (h : T.init s) : Reachable T s
  | step {s s' : σ} {l : ℓ} (hs : Reachable T s) (h : T.step s l s') : Reachable T s'

/-- The system with only the steps whose label is allowed in the state before the step. -/
def restrict (T : TransitionSystem σ ℓ) (allowed : σ → ℓ → Prop) : TransitionSystem σ ℓ where
  init := T.init
  step s l s' := allowed s l ∧ T.step s l s'

variable {T : TransitionSystem σ ℓ}

/-- A predicate that holds initially and is kept by every step from a reachable state holds in every
reachable state. -/
theorem Reachable.invariant {I : σ → Prop} (h₀ : ∀ s, T.init s → I s)
    (hstep : ∀ s l s', T.Reachable s → I s → T.step s l s' → I s') {s : σ}
    (h : T.Reachable s) : I s := by
  induction h with
  | init h => exact h₀ _ h
  | step hs h ih => exact hstep _ _ _ hs ih h

/-- A restricted run is a run of the whole system. -/
theorem Reachable.of_restrict {allowed : σ → ℓ → Prop} {s : σ}
    (h : (T.restrict allowed).Reachable s) : T.Reachable s := by
  induction h with
  | init h => exact .init h
  | step _ h ih => exact .step ih h.2

/-- Weakening the condition on the steps keeps the reachable states. -/
theorem Reachable.mono_restrict {P Q : σ → ℓ → Prop} (hPQ : ∀ s l, P s l → Q s l) {s : σ}
    (h : (T.restrict P).Reachable s) : (T.restrict Q).Reachable s := by
  induction h with
  | init h => exact .init h
  | step _ h ih => exact .step ih ⟨hPQ _ _ h.1, h.2⟩

/-- The system that starts in a given state. -/
def startAt (T : TransitionSystem σ ℓ) (s₀ : σ) : TransitionSystem σ ℓ where
  init s := s = s₀
  step := T.step

/-- A run that continues a run. -/
theorem Reachable.of_startAt {s₀ s : σ} (h₀ : T.Reachable s₀) (h : (T.startAt s₀).Reachable s) :
    T.Reachable s := by
  induction h with
  | init h => exact h ▸ h₀
  | step _ h ih => exact .step ih h

/-- The system of a step function, from one initial state. -/
def ofStep (s₀ : σ) (f : σ → ℓ → Option σ) : TransitionSystem σ ℓ where
  init s := s = s₀
  step s l s' := f s l = some s'

/-- A list of labels that can be followed from a reachable state leads to a reachable state. -/
theorem Reachable.of_foldlM {f : σ → ℓ → Option σ} (hf : ∀ s l s', f s l = some s' → T.step s l s')
    (tr : List ℓ) {s s' : σ} (hs : T.Reachable s) (h : tr.foldlM f s = some s') :
    T.Reachable s' := by
  induction tr generalizing s with
  | nil =>
      cases h
      exact hs
  | cons l tr ih =>
      rw [List.foldlM_cons, Option.bind_eq_bind, Option.bind_eq_some_iff] at h
      obtain ⟨t, ht, h⟩ := h
      exact ih (.step hs (hf _ _ _ ht)) h

/-- A run of a step function, given by its labels. -/
theorem Reachable.ofStep {s₀ s : σ} {f : σ → ℓ → Option σ} (tr : List ℓ)
    (h : tr.foldlM f s₀ = some s) : (TransitionSystem.ofStep s₀ f).Reachable s :=
  .of_foldlM (fun _ _ _ h => h) tr (.init rfl) h

/-- A run of a step function in which every label is allowed when its turn comes. -/
theorem Reachable.ofStep_restrict {s₀ s : σ} {f : σ → ℓ → Option σ} {P : σ → ℓ → Prop}
    [∀ s l, Decidable (P s l)] (tr : List ℓ)
    (h : tr.foldlM (fun s l => if P s l then f s l else none) s₀ = some s) :
    ((TransitionSystem.ofStep s₀ f).restrict P).Reachable s := by
  refine .of_foldlM (fun s l s' h => ?_) tr (.init rfl) h
  split at h
  · exact ⟨‹_›, h⟩
  · cases h

/-- The runs of the system with their labels, first label first. -/
inductive Run (T : TransitionSystem σ ℓ) : List ℓ → σ → Prop
  | init {s : σ} (h : T.init s) : Run T [] s
  | step {tr : List ℓ} {s s' : σ} {l : ℓ} (hs : Run T tr s) (h : T.step s l s') :
      Run T (tr ++ [l]) s'

theorem Run.reachable {tr : List ℓ} {s : σ} (h : T.Run tr s) : T.Reachable s := by
  induction h with
  | init h => exact .init h
  | step _ h ih => exact .step ih h

/-- The last step of a run. -/
theorem Run.last {tr : List ℓ} {l : ℓ} {s' : σ} (h : T.Run (tr ++ [l]) s') :
    ∃ s, T.Run tr s ∧ T.step s l s' := by
  generalize htr : tr ++ [l] = tr' at h
  cases h with
  | init _ => simp at htr
  | step hs h =>
      obtain ⟨rfl, hl⟩ := List.append_inj' htr rfl
      cases hl
      exact ⟨_, hs, h⟩

theorem Run.init_of_nil {s : σ} (h : T.Run [] s) : T.init s := by
  generalize htr : ([] : List ℓ) = tr' at h
  cases h with
  | init h => exact h
  | step _ _ => simp at htr

/-- Forward simulation: if every step can be matched, so can every run. -/
theorem Run.simulates {τ : Type*} {A : TransitionSystem τ ℓ} {R : σ → τ → Prop}
    (h₀ : ∀ s, T.init s → ∃ a, A.init a ∧ R s a)
    (hstep : ∀ s a l s', R s a → T.step s l s' → ∃ a', A.step a l a' ∧ R s' a') {tr : List ℓ} {s : σ}
    (h : T.Run tr s) : ∃ a, A.Run tr a ∧ R s a := by
  induction h with
  | init h =>
      obtain ⟨a, ha, hR⟩ := h₀ _ h
      exact ⟨a, .init ha, hR⟩
  | step _ h ih =>
      obtain ⟨a, ha, hR⟩ := ih
      obtain ⟨a', ha', hR'⟩ := hstep _ _ _ _ hR h
      exact ⟨a', .step ha ha', hR'⟩

end TransitionSystem
