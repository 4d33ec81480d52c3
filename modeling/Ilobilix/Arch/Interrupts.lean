import Ilobilix.Arch.PageFaults

/-!
# Interrupt vectors: `interrupts::allocate`

Every processor has a vector of handlers, one for each interrupt vector from `irq(0)` on. A handler is
`used` once a function is installed, and `reserved` once `allocate` has handed it out. The scan of
`allocate` takes the first handler that is neither and reserves it. With the legacy interrupt controller
a hint among the first sixteen interrupts is answered first: there `allocate` looks at `used` only, and
does not reserve.

So a vector from this branch is free for the next caller until a function is installed, and the branch
hands out a reserved vector as well. `State.Installed` is the condition on the callers under which no
vector is handed out twice: `vectors_exclusive`.

References to handlers point into the vector. It is made larger at the first access to a handler beyond
the first twenty, and references from before do not reach the handlers any more.
-/

namespace Ilobilix.Arch.Interrupts

def numInts : ℕ := 256

def numPreints : ℕ := 20

def panicInt : ℕ := irq 16

/-! ## The model -/

/-- `interrupts::handler`, without the function that is installed. -/
structure Handler where
  used : Bool
  reserved : Bool
deriving DecidableEq, Repr

namespace Handler

def set (h : Handler) : Handler × Bool := if h.used then (h, false) else ({ h with used := true }, true)

def reserve (h : Handler) : Handler × Bool :=
  if h.reserved then (h, false) else ({ h with reserved := true }, true)

def reset (h : Handler) : Handler × Bool := ({ h with used := false }, h.used)

def resetAll (h : Handler) : Handler × Bool := reset { h with reserved := false }

end Handler

/-- `irq_handlers` of a processor: the size of the vector and the handler of each interrupt vector. -/
structure Handlers where
  size : ℕ
  slot : ℕ → Handler

namespace Handlers

/-- The handlers after `init_on`. -/
def init : Handlers := ⟨numPreints, fun num => ⟨num == panicInt, false⟩⟩

/-- `handler_at` of an interrupt vector from `irq(0)` on makes the vector large enough. -/
def handlerAt (num : ℕ) (hs : Handlers) : Handlers :=
  if hs.size ≤ num - irq 0 then { hs with size := max numInts (num - irq 0 + 5) } else hs

def modify (num : ℕ) (f : Handler → Handler) (hs : Handlers) : Handlers :=
  { hs with slot := Function.update hs.slot num (f (hs.slot num)) }

/-- The loop of `allocate`, with the number of interrupt vectors left. -/
def scan : (left i : ℕ) → Handlers → Handlers × Option ℕ
  | 0, _, hs => (hs, none)
  | left + 1, i, hs =>
      let hs := hs.handlerAt i
      if (hs.slot i).used = false ∧ (hs.slot i).reserved = false then
        (hs.modify i fun h => h.reserve.1, some i)
      else scan left (i + 1) hs

/-- The hint after `if (hint < idt::irq(0)) hint += idt::irq(0)`. -/
def adjust (hint : ℕ) : ℕ := if hint < irq 0 then hint + irq 0 else hint

/-- `allocate` returns from the branch for the legacy interrupt controller. -/
def TakesLegacy (picEnabled : Bool) (hint : ℕ) (hs : Handlers) : Prop :=
  picEnabled = true ∧ irq 0 ≤ adjust hint ∧ adjust hint ≤ irq 15 ∧
    (hs.slot (adjust hint)).used = false

instance (picEnabled : Bool) (hint : ℕ) (hs : Handlers) :
    Decidable (hs.TakesLegacy picEnabled hint) := inferInstanceAs (Decidable (_ ∧ _))

def allocate (picEnabled : Bool) (hint : ℕ) (hs : Handlers) : Handlers × Option ℕ :=
  if hs.TakesLegacy picEnabled hint then (hs.handlerAt (adjust hint), some (adjust hint))
  else hs.scan (numInts - adjust hint) (adjust hint)

end Handlers

/-- A reference to a handler, with the size that the vector had when it was taken. -/
structure Ref where
  cpu : ℕ
  num : ℕ
  size : ℕ

/-- The handlers of all processors. Next to them are two histories that no function reads: the interrupt
vectors handed out and not released since, and those of them that the legacy branch handed out last. -/
structure State where
  handlers : ℕ → Handlers
  out : ℕ → ℕ → Bool
  legacy : ℕ → ℕ → Bool

inductive Op
  | allocate (cpuidx hint : ℕ) (ret : Option ℕ)
  | get (cpuidx vector : ℕ)
  | set (ref : Ref)
  | reset (ref : Ref)
  | resetAll (ref : Ref)

namespace State

/-- The reference leads to the handler. -/
def Live (ref : Ref) (s : State) : Prop := ref.size = (s.handlers ref.cpu).size

instance (ref : Ref) (s : State) : Decidable (s.Live ref) := inferInstanceAs (Decidable (_ = _))

/-- A history with an entry changed. -/
def mark (f : ℕ → ℕ → Bool) (cpuidx num : ℕ) (value : Bool) : ℕ → ℕ → Bool :=
  Function.update f cpuidx (Function.update (f cpuidx) num value)

/-- A call of a member of a handler. -/
def call (ref : Ref) (f : Handler → Handler) (s : State) : State :=
  if s.Live ref then
    { s with
      handlers := Function.update s.handlers ref.cpu ((s.handlers ref.cpu).modify ref.num f) }
  else s

/-- The interrupt vector is handed out. -/
def handOut (picEnabled : Bool) (cpuidx hint : ℕ) (ret : Option ℕ) (s : State) : State :=
  match ret with
  | none => s
  | some num =>
      { s with
        out := mark s.out cpuidx num true
        legacy := mark s.legacy cpuidx num
          ((s.handlers cpuidx).TakesLegacy picEnabled hint) }

/-- The calls return, on `count` processors. -/
def step (picEnabled : Bool) (count : ℕ) (s : State) : Op → Option State
  | .allocate cpuidx hint ret =>
      if hint < numInts ∧ cpuidx < count then
        let (hs, num) := (s.handlers cpuidx).allocate picEnabled hint
        if num = ret then
          some { s.handOut picEnabled cpuidx hint ret with
            handlers := Function.update s.handlers cpuidx hs }
        else none
      else none
  | .get cpuidx vector =>
      if vector < numInts ∧ cpuidx < count then
        if vector < irq 0 then some s
        else some { s with
          handlers := Function.update s.handlers cpuidx ((s.handlers cpuidx).handlerAt vector) }
      else none
  | .set ref => some (s.call ref fun h => h.set.1)
  | .reset ref => some (s.call ref fun h => h.reset.1)
  | .resetAll ref =>
      let s' := s.call ref fun h => h.resetAll.1
      if s.Live ref then
        some { s' with
          out := mark s.out ref.cpu ref.num false
          legacy := mark s.legacy ref.cpu ref.num false }
      else some s'

def init : State := ⟨fun _ => Handlers.init, fun _ _ => false, fun _ _ => false⟩

def system (picEnabled : Bool) (count : ℕ) : TransitionSystem State Op :=
  .ofStep init (step picEnabled count)

/-- At a call of `allocate` the interrupt vectors of the legacy branch have their functions installed,
and the branch is not taken at a reserved one. -/
def Installed (picEnabled : Bool) (s : State) : Op → Prop
  | .allocate cpuidx hint _ =>
      (∀ num, s.legacy cpuidx num = true → ((s.handlers cpuidx).slot num).used = true) ∧
      ((s.handlers cpuidx).TakesLegacy picEnabled hint →
        ((s.handlers cpuidx).slot (Handlers.adjust hint)).reserved = false)
  | _ => True

end State

/-! ## What `allocate` returns -/

namespace Handlers

variable {hs hs' : Handlers} {ret : Option ℕ} {hint : ℕ} {picEnabled : Bool}

@[simp] theorem handlerAt_slot (num : ℕ) (hs : Handlers) : (hs.handlerAt num).slot = hs.slot := by
  rw [handlerAt]
  split
  · rfl
  · rfl

/-- The scan reserves the first handler that is neither used nor reserved. If it finds none, there is
none. -/
theorem scan_spec {left i : ℕ} (h : hs.scan left i = (hs', ret)) :
    (∃ num, ret = some num ∧ i ≤ num ∧ num < i + left ∧ (hs.slot num).used = false ∧
      (hs.slot num).reserved = false ∧
      hs'.slot = Function.update hs.slot num { hs.slot num with reserved := true }) ∨
    (ret = none ∧ hs'.slot = hs.slot ∧
      ∀ num, i ≤ num → num < i + left → (hs.slot num).used = true ∨ (hs.slot num).reserved = true) := by
  induction left generalizing i hs with
  | zero =>
      cases h
      exact Or.inr ⟨rfl, rfl, fun num hlo hhi => absurd hhi (by omega)⟩
  | succ left ih =>
      rw [scan, handlerAt_slot] at h
      split at h
      · rename_i hfree
        cases h
        refine Or.inl ⟨i, rfl, Nat.le_refl i, by omega, hfree.1, hfree.2, ?_⟩
        rw [modify, handlerAt_slot, Handler.reserve, if_neg (by simp [hfree.2])]
      · rename_i htaken
        rcases ih h with ⟨num, hret, hlo, hhi, hfree⟩ | ⟨hret, hslot, hall⟩
        · rw [handlerAt_slot] at hfree
          exact Or.inl ⟨num, hret, by omega, by omega, hfree⟩
        · rw [handlerAt_slot] at hslot hall
          refine Or.inr ⟨hret, hslot, fun num hlo hhi => ?_⟩
          rcases Nat.eq_or_lt_of_le hlo with rfl | hlt
          · by_contra hfree
            refine htaken ⟨?_, ?_⟩
            · exact Bool.eq_false_iff.mpr fun hused => hfree (Or.inl hused)
            · exact Bool.eq_false_iff.mpr fun hreserved => hfree (Or.inr hreserved)
          · exact hall num (by omega) (by omega)

/-- What `allocate` returns is not used, and either comes from the legacy branch or was not reserved and
is now. If it returns nothing, everything from the hint on is used or reserved. -/
theorem allocate_spec (h : hs.allocate picEnabled hint = (hs', ret)) :
    (∃ num, ret = some num ∧ hs.TakesLegacy picEnabled hint ∧ num = adjust hint ∧
      (hs.slot num).used = false ∧ hs'.slot = hs.slot) ∨
    (∃ num, ret = some num ∧ ¬ hs.TakesLegacy picEnabled hint ∧ (hs.slot num).used = false ∧
      (hs.slot num).reserved = false ∧
      hs'.slot = Function.update hs.slot num { hs.slot num with reserved := true }) ∨
    (ret = none ∧ hs'.slot = hs.slot ∧ ∀ num, adjust hint ≤ num → num < numInts →
      (hs.slot num).used = true ∨ (hs.slot num).reserved = true) := by
  rw [allocate] at h
  split at h
  · rename_i hlegacy
    cases h
    exact Or.inl ⟨_, rfl, hlegacy, rfl, hlegacy.2.2.2, handlerAt_slot _ _⟩
  · rename_i hscan
    rcases scan_spec h with ⟨num, hret, -, -, hfree⟩ | ⟨hret, hslot, hall⟩
    · exact Or.inr (Or.inl ⟨num, hret, hscan, hfree⟩)
    · exact Or.inr (Or.inr ⟨hret, hslot, fun num hlo hhi => hall num hlo (by omega)⟩)

end Handlers

/-! ## Runs -/

namespace State

variable {picEnabled : Bool} {count : ℕ} {s s' : State}

theorem mark_eq (f : ℕ → ℕ → Bool) (cpuidx num : ℕ) (value : Bool) (c n : ℕ) :
    mark f cpuidx num value c n = if c = cpuidx ∧ n = num then value else f c n := by
  unfold mark
  by_cases hc : c = cpuidx
  · subst hc
    by_cases hn : n = num
    · simp [hn]
    · simp [hn]
  · simp [hc]

/-- An interrupt vector that is handed out is reserved, or comes from the legacy branch. -/
def Inv (s : State) : Prop :=
  ∀ cpuidx num, s.out cpuidx num = true → s.legacy cpuidx num = true ∨
    ((s.handlers cpuidx).slot num).reserved = true

/-- A member of a handler that does not release it keeps what is reserved. -/
theorem Inv.call {f : Handler → Handler} (hs : s.Inv) (ref : Ref)
    (hf : ∀ h : Handler, (f h).reserved = h.reserved) : (s.call ref f).Inv := by
  rw [State.call]
  split
  · intro cpuidx num hout
    refine (hs cpuidx num hout).imp_right fun hreserved => ?_
    dsimp only
    by_cases hc : cpuidx = ref.cpu
    · subst hc
      rw [Function.update_self, Handlers.modify]
      dsimp only
      by_cases hn : num = ref.num
      · rw [hn, Function.update_self, hf, ← hn]
        exact hreserved
      · rwa [Function.update_of_ne hn]
    · rwa [Function.update_of_ne hc]
  · exact hs

/-- A call of `allocate` that returns, in terms of the handlers of its processor. -/
theorem step_allocate {cpuidx hint : ℕ} {ret : Option ℕ}
    (h : s.step picEnabled count (.allocate cpuidx hint ret) = some s') :
    ∃ hs, (s.handlers cpuidx).allocate picEnabled hint = (hs, ret) ∧
      s' = { s.handOut picEnabled cpuidx hint ret with
        handlers := Function.update s.handlers cpuidx hs } := by
  rw [step] at h
  split at h
  · rcases hall : (s.handlers cpuidx).allocate picEnabled hint with ⟨hs, num⟩
    rw [hall] at h
    dsimp only at h
    split at h
    · rename_i heq
      cases h
      exact ⟨hs, by rw [heq], rfl⟩
    · cases h
  · cases h

theorem Inv.allocate {cpuidx hint : ℕ} {ret : Option ℕ} (hs : s.Inv)
    (h : s.step picEnabled count (.allocate cpuidx hint ret) = some s') : s'.Inv := by
  obtain ⟨hs', hall, rfl⟩ := step_allocate h
  intro c n hout
  dsimp only at hout ⊢
  rcases Handlers.allocate_spec hall with
    ⟨num, rfl, hlegacy, rfl, -, hslot⟩ | ⟨num, rfl, hscan, -, -, hslot⟩ | ⟨rfl, hslot, -⟩
  · simp only [handOut, mark_eq, hlegacy, decide_true] at hout ⊢
    by_cases heq : c = cpuidx ∧ n = Handlers.adjust hint
    · exact Or.inl (if_pos heq)
    · rw [if_neg heq] at hout ⊢
      refine (hs c n hout).imp_right fun hreserved => ?_
      by_cases hc : c = cpuidx
      · subst hc
        rwa [Function.update_self, hslot]
      · rwa [Function.update_of_ne hc]
  · simp only [handOut, mark_eq, hscan, decide_false] at hout ⊢
    by_cases heq : c = cpuidx ∧ n = num
    · rw [heq.1, heq.2, Function.update_self, hslot, Function.update_self]
      exact Or.inr rfl
    · rw [if_neg heq] at hout ⊢
      refine (hs c n hout).imp_right fun hreserved => ?_
      by_cases hc : c = cpuidx
      · subst hc
        rwa [Function.update_self, hslot, Function.update_of_ne fun hn => heq ⟨rfl, hn⟩]
      · rwa [Function.update_of_ne hc]
  · simp only [handOut] at hout ⊢
    refine (hs c n hout).imp_right fun hreserved => ?_
    by_cases hc : c = cpuidx
    · subst hc
      rwa [Function.update_self, hslot]
    · rwa [Function.update_of_ne hc]

/-- A release takes the interrupt vector out of the histories. -/
theorem Inv.resetAll (hs : s.Inv) (ref : Ref)
    (h : s.step picEnabled count (.resetAll ref) = some s') : s'.Inv := by
  rw [step] at h
  split at h
  · rename_i hlive
    cases h
    intro c n hout
    simp only [mark_eq] at hout ⊢
    by_cases heq : c = ref.cpu ∧ n = ref.num
    · rw [if_pos heq] at hout
      cases hout
    · rw [if_neg heq] at hout ⊢
      refine (hs c n hout).imp_right fun hreserved => ?_
      rw [State.call, if_pos hlive]
      dsimp only
      by_cases hc : c = ref.cpu
      · subst hc
        rw [Function.update_self, Handlers.modify]
        dsimp only
        rwa [Function.update_of_ne fun hn => heq ⟨rfl, hn⟩]
      · rwa [Function.update_of_ne hc]
  · rename_i hstale
    cases h
    rwa [State.call, if_neg hstale]

theorem Inv.step (hs : s.Inv) {op : Op} (h : s.step picEnabled count op = some s') : s'.Inv := by
  cases op with
  | allocate cpuidx hint ret => exact hs.allocate h
  | get cpuidx vector =>
      rw [State.step] at h
      split at h
      · split at h
        · cases h
          exact hs
        · cases h
          intro c n hout
          refine (hs c n hout).imp_right fun hreserved => ?_
          dsimp only
          by_cases hc : c = cpuidx
          · subst hc
            rwa [Function.update_self, Handlers.handlerAt_slot]
          · rwa [Function.update_of_ne hc]
      · cases h
  | set ref =>
      cases h
      refine hs.call ref fun h => ?_
      rw [Handler.set]
      split
      · rfl
      · rfl
  | reset ref =>
      cases h
      exact hs.call ref fun _ => rfl
  | resetAll ref => exact hs.resetAll ref h

theorem inv_of_reachable (h : (system picEnabled count).Reachable s) : s.Inv := by
  refine h.invariant (fun s hs => ?_) fun s op s' _ hs hstep => hs.step hstep
  cases hs
  intro cpuidx num hout
  cases hout

end State

/-- In a run in which every `allocate` finds the interrupt vectors of the legacy branch installed, and
the branch is not taken at a reserved one, no interrupt vector is handed out again before it is
released. And `allocate` returns nothing only if everything from the hint on is used or reserved. -/
theorem vectors_exclusive (picEnabled : Bool) (count : ℕ) {s s' : State} {cpuidx hint : ℕ}
    {ret : Option ℕ}
    (h : ((State.system picEnabled count).restrict fun s op =>
      s.Installed picEnabled op).Reachable s)
    (hstep : ((State.system picEnabled count).restrict fun s op => s.Installed picEnabled op).step s
      (.allocate cpuidx hint ret) s') :
    (∀ num, ret = some num → s.out cpuidx num = false ∧ s'.out cpuidx num = true) ∧
    (ret = none → ∀ num, Handlers.adjust hint ≤ num → num < numInts →
      ((s.handlers cpuidx).slot num).used = true ∨
        ((s.handlers cpuidx).slot num).reserved = true) := by
  obtain ⟨⟨hinstalled, hlegacy⟩, hstep⟩ := hstep
  have hinv := State.inv_of_reachable h.of_restrict
  obtain ⟨hs, hall, rfl⟩ := State.step_allocate hstep
  -- a handler that is neither used nor reserved was not handed out
  have hfresh : ∀ num, ((s.handlers cpuidx).slot num).used = false →
      ((s.handlers cpuidx).slot num).reserved = false → s.out cpuidx num = false := by
    intro num hused hreserved
    refine Bool.eq_false_iff.mpr fun hout => ?_
    rcases hinv cpuidx num hout with hlast | hmark
    · rw [hinstalled num hlast] at hused
      cases hused
    · rw [hmark] at hreserved
      cases hreserved
  have hmarked : ∀ num, ret = some num →
      (s.handOut picEnabled cpuidx hint ret).out cpuidx num = true := by
    rintro num rfl
    rw [State.handOut]
    dsimp only
    rw [State.mark_eq, if_pos ⟨rfl, rfl⟩]
  rcases Handlers.allocate_spec hall with
    ⟨num, rfl, htakes, rfl, hused, -⟩ | ⟨num, rfl, -, hused, hreserved, -⟩ | ⟨rfl, -, hnone⟩
  · refine ⟨fun n hn => ⟨?_, hmarked n hn⟩, nofun⟩
    cases hn
    exact hfresh _ hused (hlegacy htakes)
  · refine ⟨fun n hn => ⟨?_, hmarked n hn⟩, nofun⟩
    cases hn
    exact hfresh _ hused hreserved
  · exact ⟨nofun, fun _ => hnone⟩

/-- The legacy branch has handed out `0x21` on the first processor. -/
def exampleHanded : State :=
  (State.init.step true 1 (.allocate 0 0x21 (some 0x21))).getD State.init

/-- Its function is installed. -/
def exampleInstalled : State := exampleHanded.call ⟨0, 0x21, numPreints⟩ fun h => h.set.1

private theorem exampleInstalled_reachable :
    ((State.system true 1).restrict fun s op => s.Installed true op).Reachable exampleInstalled := by
  refine .step (l := .set ⟨0, 0x21, numPreints⟩) (.step (l := .allocate 0 0x21 (some 0x21))
    (.init rfl) ⟨⟨?_, ?_⟩, rfl⟩) ⟨trivial, rfl⟩
  · intro num hlegacy
    cases hlegacy
  · exact fun _ => rfl

private theorem exampleInstalled_allows :
    exampleInstalled.Installed true (.allocate 0 0x21 (some 0x22)) := by
  refine ⟨fun num hlegacy => ?_, fun htakes => absurd htakes (by decide)⟩
  have hnum : num = 0x21 := by
    change State.mark _ 0 0x21 _ 0 num = true at hlegacy
    rw [State.mark_eq] at hlegacy
    by_contra hne
    rw [if_neg fun h => hne h.2] at hlegacy
    cases hlegacy
  rw [hnum]
  rfl

/-- The next call with the same hint gets another interrupt vector. -/
theorem vectors_exclusive_installed :
    exampleInstalled.out 0 0x22 = false :=
  ((vectors_exclusive true 1 exampleInstalled_reachable
    ⟨exampleInstalled_allows, rfl⟩).1 0x22 rfl).1

/-- Without the function, the second call returns `0x21` again. -/
theorem allocate_twice :
    ¬ ∀ (picEnabled : Bool) (count : ℕ) (s s' : State) (cpuidx hint num : ℕ),
      (State.system picEnabled count).Reachable s →
      (State.system picEnabled count).step s (.allocate cpuidx hint (some num)) s' →
      s.out cpuidx num = false := by
  intro h
  have hreach : (State.system true 1).Reachable exampleHanded :=
    .ofStep [.allocate 0 0x21 (some 0x21)] rfl
  exact absurd (h true 1 exampleHanded _ 0 0x21 0x21 hreach rfl) (by decide)

end Ilobilix.Arch.Interrupts
