import Ilobilix.Foundation.Transition
import Ilobilix.Lib.Spinlock
import Mathlib.Data.Fintype.Basic

/-!
# The interrupt-saving spinlock

`spinlock_base<lock_type::irq>` turns interrupts off before it takes the ticket lock and restores
them after the unlock. How deep a processor is nested is counted per processor in `irq_depth`, but
the flag to restore is a field of the lock, written before the lock is acquired. The model follows
the processors instruction by instruction, outside of interrupt handlers and after
`cpu::local::available`. A processor does not lock a lock it holds: it would spin for ever.

Two things go wrong. A processor that starts to lock overwrites the flag of the processor that holds
the lock, and a processor that releases the lock it took first before another one restores the flag
saved by the other one, which is off.
-/

namespace Ilobilix.Lib

/-- Where a processor is in `lock` and `unlock`: what it does next. -/
inductive IrqPc (L : Type*)
  | idle
  /-- `acquire_irq` before the `fetch_add` on `irq_depth`. -/
  | fetchAdd (l : L) (ret : Bool)
  | switchOff (l : L) (ret : Bool)
  /-- `lock` before the write of `_interrupts`. -/
  | save (l : L) (ret : Bool)
  | take (l : L)
  | spin (l : L) (ticket : ℕ)
  /-- `unlock` before the read of `_interrupts`. -/
  | readSaved (l : L)
  /-- `release_irq` before the `fetch_sub` on `irq_depth`. -/
  | fetchSub (old : Bool)
  | switchBack (old : Bool)

/-- A processor. -/
structure IrqCpu (L : Type*) where
  /-- The interrupt-enable flag. -/
  ints : Bool
  irqDepth : ℕ
  pc : IrqPc L
  /-- The locks it holds, the last one taken first. -/
  held : List L
  /-- The flag before it took its first lock. Not part of the program. -/
  before : Bool
  /-- The lock it took first. Not part of the program. -/
  first : Option L

structure IrqState (C L : Type*) where
  cpu : C → IrqCpu L
  lock : L → Spinlock
  /-- `_interrupts` of each lock. -/
  interrupts : L → Bool

/-- A processor sets its own flag while it holds no lock, calls `lock` or `unlock`, or continues. -/
inductive IrqStep (L : Type*)
  | setInts (ints : Bool)
  | lock (l : L)
  | unlock (l : L)
  | run

namespace IrqState

variable {C L : Type*} [DecidableEq C] [DecidableEq L]

def setCpu (s : IrqState C L) (c : C) (cpu : IrqCpu L) : IrqState C L :=
  { s with cpu := Function.update s.cpu c cpu }

/-- `lock` calls `acquire_irq`, which reads the flag first. -/
def beginLock (s : IrqState C L) (c : C) (l : L) : IrqState C L :=
  let cpu := s.cpu c
  s.setCpu c { cpu with
    pc := .fetchAdd l cpu.ints, before := if cpu.held = [] then cpu.ints else cpu.before }

/-- `unlock` serves the next ticket; it gives up if the lock is not locked. -/
def beginUnlock (s : IrqState C L) (c : C) (l : L) : IrqState C L :=
  let cpu := s.cpu c
  if (s.lock l).isLocked then
    { s.setCpu c { cpu with pc := .readSaved l, held := cpu.held.erase l } with
      lock := Function.update s.lock l (s.lock l).unlock.1 }
  else s

/-- The next instruction of a processor inside `lock` or `unlock`; `none` while it spins. -/
def run (s : IrqState C L) (c : C) : Option (IrqState C L) :=
  let cpu := s.cpu c
  match cpu.pc with
  | .idle => none
  | .fetchAdd l ret =>
      some (s.setCpu c { cpu with
        irqDepth := cpu.irqDepth + 1
        pc := if cpu.irqDepth = 0 then .switchOff l ret else .save l ret })
  | .switchOff l ret => some (s.setCpu c { cpu with ints := false, pc := .save l ret })
  | .save l ret =>
      some { s.setCpu c { cpu with
          pc := .take l, first := if cpu.held = [] then some l else cpu.first } with
        interrupts := Function.update s.interrupts l ret }
  | .take l =>
      some { s.setCpu c { cpu with pc := .spin l (s.lock l).nextTicket } with
        lock := Function.update s.lock l (s.lock l).take }
  | .spin l ticket =>
      if (s.lock l).servingTicket = ticket then
        some (s.setCpu c { cpu with pc := .idle, held := l :: cpu.held })
      else none
  | .readSaved l => some (s.setCpu c { cpu with pc := .fetchSub (s.interrupts l) })
  | .fetchSub old =>
      some (s.setCpu c { cpu with
        irqDepth := cpu.irqDepth - 1
        pc := if cpu.irqDepth = 1 then .switchBack old else .idle })
  | .switchBack old => some (s.setCpu c { cpu with ints := old, pc := .idle })

/-- One step of processor `c`; `none` if it cannot take it. -/
def step (s : IrqState C L) : C × IrqStep L → Option (IrqState C L)
  | (c, .setInts ints) =>
      match (s.cpu c).pc with
      | .idle =>
          if (s.cpu c).held = [] then
            some (s.setCpu c { s.cpu c with ints := ints, before := ints })
          else none
      | _ => none
  | (c, .lock l) =>
      match (s.cpu c).pc with
      | .idle => if l ∈ (s.cpu c).held then none else some (s.beginLock c l)
      | _ => none
  | (c, .unlock l) =>
      match (s.cpu c).pc with
      | .idle => if l ∈ (s.cpu c).held then some (s.beginUnlock c l) else none
      | _ => none
  | (c, .run) => s.run c

end IrqState

/-- Any number of processors that use any set of locks. -/
def irqSystem (C L : Type*) [DecidableEq C] [DecidableEq L] :
    TransitionSystem (IrqState C L) (C × IrqStep L) where
  init s := (∀ c, (s.cpu c).irqDepth = 0 ∧ (s.cpu c).pc = .idle ∧ (s.cpu c).held = [] ∧
    (s.cpu c).before = (s.cpu c).ints ∧ (s.cpu c).first = none) ∧ ∀ l, s.lock l = .new
  step s l s' := s.step l = some s'

/-! ## The tickets -/

namespace IrqState

variable {C L : Type*} [DecidableEq L]

/-- The ticket of a processor for a lock: it holds the lock, or spins for it. -/
def ticket (s : IrqState C L) (l : L) (c : C) : Option ℕ :=
  if l ∈ (s.cpu c).held then some (s.lock l).servingTicket
  else
    match (s.cpu c).pc with
    | .spin l' ticket => if l' = l then some ticket else none
    | _ => none

/-- The tickets of every lock are in order. -/
def Ticketed (s : IrqState C L) : Prop := ∀ l, (s.lock l).Tickets (s.ticket l)

variable [DecidableEq C] {s s' : IrqState C L} {c : C} {l : L}

/-- A step of `c` that keeps its ticket for every lock. -/
theorem Ticketed.setCpu (h : s.Ticketed) {x : IrqCpu L} {interrupts : L → Bool}
    (hx : ∀ l, (s.setCpu c x).ticket l c = s.ticket l c) :
    Ticketed { s.setCpu c x with interrupts := interrupts } := by
  intro l
  refine (h l).congr fun u => ?_
  by_cases hu : u = c
  · subst hu
    exact hx l
  · simp [ticket, IrqState.setCpu, hu]

/-- A processor that neither spins before the step nor after it, and holds the same locks. -/
theorem Ticketed.setPc (h : s.Ticketed) {x : IrqCpu L} {interrupts : L → Bool}
    (hheld : x.held = (s.cpu c).held) (hold : ∀ l k, (s.cpu c).pc ≠ .spin l k)
    (hnew : ∀ l k, x.pc ≠ .spin l k) :
    Ticketed { s.setCpu c x with interrupts := interrupts } := by
  refine h.setCpu fun l => ?_
  simp only [ticket, IrqState.setCpu, Function.update_self, hheld]

theorem Ticketed.take (h : s.Ticketed) (hpc : (s.cpu c).pc = .take l)
    (hheld : l ∉ (s.cpu c).held) :
    Ticketed { s.setCpu c { s.cpu c with pc := .spin l (s.lock l).nextTicket } with
      lock := Function.update s.lock l (s.lock l).take } := by
  intro l'
  by_cases hl : l' = l
  · subst hl
    simp only [Function.update_self]
    refine (h l').take (t := c) ?_ fun u hu => ?_
    · simp [ticket, IrqState.setCpu, hheld]
    · simp [ticket, IrqState.setCpu, hu, Spinlock.take]
  · simp only [Function.update_of_ne hl]
    refine (h l').congr fun u => ?_
    by_cases hu : u = c
    · subst hu
      simp [ticket, IrqState.setCpu, hl, hpc, Ne.symm hl]
    · simp [ticket, IrqState.setCpu, hu, hl]

/-- The ticket of the processor that enters is the one being served. -/
theorem Ticketed.acquire (h : s.Ticketed) (hpc : (s.cpu c).pc = .spin l (s.lock l).servingTicket) :
    Ticketed (s.setCpu c { s.cpu c with pc := .idle, held := l :: (s.cpu c).held }) := by
  refine h.setCpu fun l' => ?_
  by_cases hl : l' = l
  · subst hl
    simp [ticket, IrqState.setCpu, hpc]
  · simp [ticket, IrqState.setCpu, hpc, hl, Ne.symm hl]

omit [DecidableEq C] in
theorem Ticketed.isLocked (h : s.Ticketed) (hl : l ∈ (s.cpu c).held) :
    (s.lock l).isLocked = true :=
  (h l).isLocked (t := c) (by simp [ticket, hl])

theorem Ticketed.unlock (h : s.Ticketed) (hpc : (s.cpu c).pc = .idle) (hl : l ∈ (s.cpu c).held)
    (hnodup : (s.cpu c).held.Nodup) :
    Ticketed { s.setCpu c { s.cpu c with pc := .readSaved l, held := (s.cpu c).held.erase l } with
      lock := Function.update s.lock l (s.lock l).unlock.1 } := by
  intro l'
  by_cases hl' : l' = l
  · subst hl'
    have hc : s.ticket l' c = some (s.lock l').servingTicket := by simp [ticket, hl]
    simp only [Function.update_self]
    refine (h l').unlock hc ?_ fun u hu => ?_
    · simp [ticket, IrqState.setCpu, hnodup.mem_erase_iff]
    · -- Another processor cannot hold the lock: it would have the ticket of `c`.
      have hu' : l' ∉ (s.cpu u).held := fun hmem =>
        hu ((h l').inj u c _ (by simp [ticket, hmem]) hc)
      simp [ticket, IrqState.setCpu, hu, hu']
  · simp only [Function.update_of_ne hl']
    refine (h l').congr fun u => ?_
    by_cases hu : u = c
    · subst hu
      simp [ticket, IrqState.setCpu, hl', hpc, hnodup.mem_erase_iff]
    · simp [ticket, IrqState.setCpu, hu, hl']

end IrqState

/-! ## The saved flag -/

section Saved

variable {L : Type*}

/-- The nesting level that `irq_depth` counts beyond the locks held. -/
def IrqPc.counts : IrqPc L → ℕ
  | .idle | .fetchAdd _ _ | .switchBack _ => 0
  | _ => 1

/-- What holds at each place: the flag to restore is on its way from the processor to the lock and
back, and only matters for the first lock. -/
def IrqCpu.PcOk (interrupts : L → Bool) (x : IrqCpu L) : Prop :=
  match x.pc with
  | .idle => x.held = [] → x.ints = x.before
  | .fetchAdd l ret => l ∉ x.held ∧ (x.held = [] → ret = x.before)
  | .switchOff _ ret => x.held = [] ∧ ret = x.before
  | .save l ret => l ∉ x.held ∧ x.ints = false ∧ (x.held = [] → ret = x.before)
  | .take l | .spin l _ =>
      l ∉ x.held ∧ x.ints = false ∧ (x.held = [] → x.first = some l ∧ interrupts l = x.before)
  | .readSaved l => x.ints = false ∧ (x.held = [] → x.first = some l ∧ interrupts l = x.before)
  | .fetchSub old => x.ints = false ∧ (x.held = [] → old = x.before)
  | .switchBack old => x.held = [] ∧ old = x.before

/-- While the processor holds locks, the flag is in the lock it took first. -/
structure IrqCpu.Ok (interrupts : L → Bool) (x : IrqCpu L) : Prop where
  nodup : x.held.Nodup
  depth : x.irqDepth = x.held.length + x.pc.counts
  nested : x.held ≠ [] → x.ints = false ∧ ∃ l ∈ x.held, x.first = some l ∧ interrupts l = x.before
  pcOk : x.PcOk interrupts

/-- Between the write of `_interrupts` and its read. -/
def IrqPc.saved : IrqPc L → Bool
  | .take _ | .spin _ _ | .readSaved _ => true
  | _ => false

/-- The processor has saved its flag in `l` and has not read it back. -/
def IrqCpu.Keeps (x : IrqCpu L) (l : L) : Prop :=
  x.first = some l ∧ (x.held ≠ [] ∨ x.pc.saved = true)

instance [DecidableEq L] (x : IrqCpu L) (l : L) : Decidable (x.Keeps l) :=
  inferInstanceAs (Decidable (_ ∧ (_ ∨ _)))

/-- Another processor may change the flags a processor does not keep. -/
theorem IrqCpu.Ok.congr {interrupts interrupts' : L → Bool} {x : IrqCpu L} (h : x.Ok interrupts)
    (he : ∀ l, x.Keeps l → interrupts' l = interrupts l) : x.Ok interrupts' := by
  refine ⟨h.nodup, h.depth, fun hne => ?_, ?_⟩
  · obtain ⟨hints, l, hl, hfirst, hsaved⟩ := h.nested hne
    exact ⟨hints, l, hl, hfirst, (he l ⟨hfirst, .inl hne⟩).trans hsaved⟩
  · have hpc := h.pcOk
    have hkeeps : ∀ l, x.first = some l → x.pc.saved = true → interrupts' l = interrupts l :=
      fun l hfirst hsaved => he l ⟨hfirst, .inr hsaved⟩
    unfold IrqCpu.PcOk at hpc ⊢
    cases hx : x.pc <;> simp only [hx] at hpc ⊢
    case idle | fetchAdd | switchOff | save | fetchSub | switchBack => exact hpc
    case take l =>
      refine ⟨hpc.1, hpc.2.1, fun hnil => ⟨(hpc.2.2 hnil).1, ?_⟩⟩
      rw [hkeeps l (hpc.2.2 hnil).1 (by simp [hx, IrqPc.saved])]
      exact (hpc.2.2 hnil).2
    case spin l k =>
      refine ⟨hpc.1, hpc.2.1, fun hnil => ⟨(hpc.2.2 hnil).1, ?_⟩⟩
      rw [hkeeps l (hpc.2.2 hnil).1 (by simp [hx, IrqPc.saved])]
      exact (hpc.2.2 hnil).2
    case readSaved l =>
      refine ⟨hpc.1, fun hnil => ⟨(hpc.2 hnil).1, ?_⟩⟩
      rw [hkeeps l (hpc.2 hnil).1 (by simp [hx, IrqPc.saved])]
      exact (hpc.2 hnil).2

end Saved

/-! ## One processor

What each instruction does to the invariant of its own processor. -/

namespace IrqCpu.Ok

variable {L : Type*} {interrupts : L → Bool} {x : IrqCpu L} {l : L} {ret old : Bool}

theorem setInts (h : x.Ok interrupts) (hpc : x.pc = .idle) (hheld : x.held = []) (ints : Bool) :
    Ok interrupts { x with ints := ints, before := ints } := by
  refine ⟨h.nodup, h.depth, fun hne => absurd hheld hne, ?_⟩
  simp [PcOk, hpc]

theorem beginLock [DecidableEq L] (h : x.Ok interrupts) (hpc : x.pc = .idle) (hl : l ∉ x.held) :
    Ok interrupts { x with
      pc := .fetchAdd l x.ints, before := if x.held = [] then x.ints else x.before } := by
  have hdepth := h.depth
  rw [hpc] at hdepth
  refine ⟨h.nodup, hdepth, fun hne => ?_, ?_⟩
  · simp only [if_neg hne]
    exact h.nested hne
  · refine ⟨hl, fun hnil => ?_⟩
    simp only at hnil
    simp [hnil]

theorem fetchAdd (h : x.Ok interrupts) (hpc : x.pc = .fetchAdd l ret) :
    Ok interrupts { x with
      irqDepth := x.irqDepth + 1
      pc := if x.irqDepth = 0 then .switchOff l ret else .save l ret } := by
  have hdepth := h.depth
  have hok := h.pcOk
  simp only [hpc, IrqPc.counts, Nat.add_zero] at hdepth
  simp only [PcOk, hpc] at hok
  by_cases h0 : x.irqDepth = 0
  · have hnil : x.held = [] := List.length_eq_zero_iff.1 (hdepth ▸ h0)
    refine ⟨h.nodup, ?_, fun hne => absurd hnil hne, ?_⟩
    · simp [h0, hnil, IrqPc.counts]
    · simp only [PcOk, h0, if_true]
      exact ⟨hnil, hok.2 hnil⟩
  · have hne : x.held ≠ [] := fun hnil => h0 (by rw [hdepth, hnil]; rfl)
    refine ⟨h.nodup, ?_, h.nested, ?_⟩
    · simp only [h0, if_false, IrqPc.counts]
      omega
    · simp only [PcOk, h0, if_false]
      exact ⟨hok.1, (h.nested hne).1, hok.2⟩

theorem switchOff (h : x.Ok interrupts) (hpc : x.pc = .switchOff l ret) :
    Ok interrupts { x with ints := false, pc := .save l ret } := by
  have hdepth := h.depth
  have hok := h.pcOk
  simp only [hpc, IrqPc.counts] at hdepth
  simp only [PcOk, hpc] at hok
  refine ⟨h.nodup, hdepth, fun hne => absurd hok.1 hne, ?_⟩
  exact ⟨by simp [hok.1], rfl, fun _ => hok.2⟩

/-- The write of `_interrupts` is the save of the first lock, or of a lock that does not matter. -/
theorem save [DecidableEq L] (h : x.Ok interrupts) (hpc : x.pc = .save l ret) :
    Ok (Function.update interrupts l ret) { x with
      pc := .take l, first := if x.held = [] then some l else x.first } := by
  have hdepth := h.depth
  have hok := h.pcOk
  simp only [hpc, IrqPc.counts] at hdepth
  simp only [PcOk, hpc] at hok
  refine ⟨h.nodup, hdepth, fun hne => ?_, hok.1, hok.2.1, fun hnil => ?_⟩
  · obtain ⟨hints, k, hk, hfirst, hsaved⟩ := h.nested hne
    have hkl : k ≠ l := fun hkl => hok.1 (hkl ▸ hk)
    refine ⟨hints, k, hk, ?_, ?_⟩
    · simp only [if_neg hne]
      exact hfirst
    · rw [Function.update_of_ne hkl]
      exact hsaved
  · simp only at hnil
    simp [hnil, hok.2.2 hnil]

theorem take (h : x.Ok interrupts) (hpc : x.pc = .take l) (k : ℕ) :
    Ok interrupts { x with pc := .spin l k } := by
  have hdepth := h.depth
  have hok := h.pcOk
  simp only [hpc, IrqPc.counts] at hdepth
  simp only [PcOk, hpc] at hok
  exact ⟨h.nodup, hdepth, h.nested, hok⟩

theorem acquire {k : ℕ} (h : x.Ok interrupts) (hpc : x.pc = .spin l k) :
    Ok interrupts { x with pc := .idle, held := l :: x.held } := by
  have hdepth := h.depth
  have hok := h.pcOk
  simp only [hpc, IrqPc.counts] at hdepth
  simp only [PcOk, hpc] at hok
  refine ⟨List.nodup_cons.2 ⟨hok.1, h.nodup⟩, hdepth, fun _ => ⟨hok.2.1, ?_⟩, ?_⟩
  · by_cases hnil : x.held = []
    · exact ⟨l, by simp, hok.2.2 hnil⟩
    · obtain ⟨-, l', hl', hsaved⟩ := h.nested hnil
      exact ⟨l', by simp [hl'], hsaved⟩
  · simp [PcOk]

/-- The lock that was taken first is the last one to be released, so that the flag stays in a lock
that is held. -/
theorem unlock [DecidableEq L] (h : x.Ok interrupts) (hpc : x.pc = .idle) (hl : l ∈ x.held)
    (hlast : x.first = some l → x.held = [l]) :
    Ok interrupts { x with pc := .readSaved l, held := x.held.erase l } := by
  have hdepth := h.depth
  obtain ⟨hints, l', hl', hfirst, hsaved⟩ := h.nested (List.ne_nil_of_mem hl)
  have hlen := List.length_erase_of_mem hl
  have hpos := List.length_pos_of_mem hl
  simp only [hpc, IrqPc.counts] at hdepth
  have hcases : x.held.erase l = [] ∧ l' = l ∨ l' ∈ x.held.erase l := by
    by_cases hll : l' = l
    · left
      rw [hlast (hll ▸ hfirst)]
      simp [hll]
    · exact .inr ((List.mem_erase_of_ne hll).2 hl')
  refine ⟨h.nodup.erase l, ?_, fun hne => ?_, hints, fun hnil => ?_⟩
  · simp only [IrqPc.counts]
    omega
  · obtain ⟨hnil, -⟩ | hmem := hcases
    · exact absurd hnil hne
    · exact ⟨hints, l', hmem, hfirst, hsaved⟩
  · obtain ⟨-, rfl⟩ | hmem := hcases
    · exact ⟨hfirst, hsaved⟩
    · simp only at hnil
      simp [hnil] at hmem

theorem readSaved (h : x.Ok interrupts) (hpc : x.pc = .readSaved l) :
    Ok interrupts { x with pc := .fetchSub (interrupts l) } := by
  have hdepth := h.depth
  have hok := h.pcOk
  simp only [hpc, IrqPc.counts] at hdepth
  simp only [PcOk, hpc] at hok
  exact ⟨h.nodup, hdepth, h.nested, hok.1, fun hnil => (hok.2 hnil).2⟩

theorem fetchSub (h : x.Ok interrupts) (hpc : x.pc = .fetchSub old) :
    Ok interrupts { x with
      irqDepth := x.irqDepth - 1
      pc := if x.irqDepth = 1 then .switchBack old else .idle } := by
  have hdepth := h.depth
  have hok := h.pcOk
  simp only [hpc, IrqPc.counts] at hdepth
  simp only [PcOk, hpc] at hok
  by_cases h1 : x.irqDepth = 1
  · have hnil : x.held = [] := List.length_eq_zero_iff.1 (by omega)
    refine ⟨h.nodup, ?_, fun hne => absurd hnil hne, ?_⟩
    · simp [h1, hnil, IrqPc.counts]
    · simp only [PcOk, h1, if_true]
      exact ⟨hnil, hok.2 hnil⟩
  · refine ⟨h.nodup, ?_, h.nested, ?_⟩
    · simp only [h1, if_false, IrqPc.counts]
      omega
    · simp only [PcOk, h1, if_false]
      intro hnil
      rw [hnil] at hdepth
      exact absurd hdepth h1

theorem switchBack (h : x.Ok interrupts) (hpc : x.pc = .switchBack old) :
    Ok interrupts { x with ints := old, pc := .idle } := by
  have hdepth := h.depth
  have hok := h.pcOk
  simp only [hpc, IrqPc.counts] at hdepth
  simp only [PcOk, hpc] at hok
  exact ⟨h.nodup, hdepth, fun hne => absurd hok.1 hne, fun _ => hok.2⟩

end IrqCpu.Ok

/-! ## Every run -/

namespace IrqState

variable {C L : Type*} [DecidableEq C] [DecidableEq L] {s s' : IrqState C L} {c : C} {l : L}

/-- The write of `_interrupts` does not change a flag that another processor keeps there. -/
def SaveKeeps (s : IrqState C L) (c : C) : IrqPc L → Prop
  | .save l ret => ∀ u, u ≠ c → (s.cpu u).Keeps l → ret = s.interrupts l
  | _ => True

/-- A processor releases the lock it took first when it holds no other one, and nobody overwrites
`_interrupts` with another value while a processor keeps its flag there. -/
def KeepsFlags (s : IrqState C L) : C × IrqStep L → Prop
  | (c, .unlock l) => (s.cpu c).first = some l → (s.cpu c).held = [l]
  | (c, .run) => s.SaveKeeps c (s.cpu c).pc
  | _ => True

instance [Fintype C] (s : IrqState C L) (c : C) : (pc : IrqPc L) → Decidable (s.SaveKeeps c pc)
  | .save l ret =>
      inferInstanceAs (Decidable (∀ u, u ≠ c → (s.cpu u).Keeps l → ret = s.interrupts l))
  | .idle | .fetchAdd _ _ | .switchOff _ _ | .take _ | .spin _ _ | .readSaved _ | .fetchSub _
  | .switchBack _ => isTrue trivial

instance [Fintype C] (s : IrqState C L) : (e : C × IrqStep L) → Decidable (s.KeepsFlags e)
  | (c, .unlock l) =>
      inferInstanceAs (Decidable ((s.cpu c).first = some l → (s.cpu c).held = [l]))
  | (c, .run) => inferInstanceAs (Decidable (s.SaveKeeps c (s.cpu c).pc))
  | (_, .setInts _) | (_, .lock _) => isTrue trivial

structure Inv (s : IrqState C L) : Prop where
  ticketed : s.Ticketed
  ok : ∀ c, (s.cpu c).Ok s.interrupts

/-- A step of one processor that writes no flag. -/
theorem Inv.setCpu {lock : L → Spinlock} {x : IrqCpu L} (h : s.Inv)
    (ht : Ticketed { s.setCpu c x with lock := lock }) (hx : x.Ok s.interrupts) :
    Inv { s.setCpu c x with lock := lock } := by
  refine ⟨ht, fun u => ?_⟩
  by_cases hu : u = c
  · subst hu
    simpa [IrqState.setCpu] using hx
  · simpa [IrqState.setCpu, hu] using h.ok u

theorem Inv.save {ret : Bool} (h : s.Inv) (hpc : (s.cpu c).pc = .save l ret)
    (hkeeps : ∀ u, u ≠ c → (s.cpu u).Keeps l → ret = s.interrupts l) :
    Inv { s.setCpu c { s.cpu c with
        pc := .take l, first := if (s.cpu c).held = [] then some l else (s.cpu c).first } with
      interrupts := Function.update s.interrupts l ret } := by
  refine ⟨h.ticketed.setPc rfl (by simp [hpc]) (by simp), fun u => ?_⟩
  by_cases hu : u = c
  · subst hu
    simpa [IrqState.setCpu] using (h.ok u).save hpc
  · simp only [IrqState.setCpu, Function.update_of_ne hu]
    refine (h.ok u).congr fun l' hl' => ?_
    by_cases hll : l' = l
    · subst hll
      rw [Function.update_self, hkeeps u hu hl']
    · rw [Function.update_of_ne hll]

theorem Inv.run (h : s.Inv) (hkeeps : s.KeepsFlags (c, .run)) (hs : s.run c = some s') :
    s'.Inv := by
  have hc := h.ok c
  have hok := hc.pcOk
  have hspin : ∀ {x : IrqCpu L}, x.held = (s.cpu c).held → (∀ l k, (s.cpu c).pc ≠ .spin l k) →
      (∀ l k, x.pc ≠ .spin l k) → x.Ok s.interrupts → Inv (s.setCpu c x) :=
    fun hheld hold hnew hx => h.setCpu (h.ticketed.setPc hheld hold hnew) hx
  simp only [IrqState.run] at hs
  simp only [KeepsFlags, SaveKeeps] at hkeeps
  cases hpc : (s.cpu c).pc <;> simp only [hpc, IrqCpu.PcOk] at hs hkeeps hok
  case idle => cases hs
  case fetchAdd l ret =>
    cases hs
    exact hspin rfl (by simp [hpc]) (by split <;> simp) (hc.fetchAdd hpc)
  case switchOff l ret =>
    cases hs
    exact hspin rfl (by simp [hpc]) (by simp) (hc.switchOff hpc)
  case save l ret =>
    cases hs
    exact h.save hpc hkeeps
  case take l =>
    cases hs
    exact h.setCpu (h.ticketed.take hpc hok.1) (hc.take hpc _)
  case spin l k =>
    split at hs
    · rename_i hserving
      cases hs
      exact h.setCpu (h.ticketed.acquire (hserving ▸ hpc)) (hc.acquire hpc)
    · cases hs
  case readSaved l =>
    cases hs
    exact hspin rfl (by simp [hpc]) (by simp) (hc.readSaved hpc)
  case fetchSub old =>
    cases hs
    exact hspin rfl (by simp [hpc]) (by split <;> simp) (hc.fetchSub hpc)
  case switchBack old =>
    cases hs
    exact hspin rfl (by simp [hpc]) (by simp) (hc.switchBack hpc)

theorem Inv.step {e : C × IrqStep L} (h : s.Inv) (hkeeps : s.KeepsFlags e)
    (hs : s.step e = some s') : s'.Inv := by
  obtain ⟨c, e⟩ := e
  have hc := h.ok c
  cases e with
  | run => exact h.run hkeeps hs
  | setInts ints =>
      simp only [IrqState.step] at hs
      split at hs
      · rename_i hpc
        split at hs
        · rename_i hheld
          cases hs
          exact h.setCpu (h.ticketed.setPc rfl (by simp [hpc]) (by simp [hpc]))
            (hc.setInts hpc hheld ints)
        · cases hs
      · cases hs
  | lock l =>
      simp only [IrqState.step] at hs
      split at hs
      · rename_i hpc
        split at hs
        · cases hs
        · rename_i hheld
          cases hs
          exact h.setCpu (h.ticketed.setPc rfl (by simp [hpc]) (by simp)) (hc.beginLock hpc hheld)
      · cases hs
  | unlock l =>
      simp only [IrqState.step] at hs
      split at hs
      · rename_i hpc
        split at hs
        · rename_i hheld
          cases hs
          simp only [beginUnlock, h.ticketed.isLocked hheld, if_true]
          exact h.setCpu (h.ticketed.unlock hpc hheld hc.nodup) (hc.unlock hpc hheld hkeeps)
        · cases hs
      · cases hs

theorem inv_of_reachable (h : ((irqSystem C L).restrict KeepsFlags).Reachable s) : s.Inv := by
  refine h.invariant (fun s hs => ?_) fun s e s' _ hI hs => hI.step hs.1 hs.2
  refine ⟨fun l => ?_, fun c => ?_⟩
  · rw [hs.2 l]
    refine Spinlock.Tickets.new.congr fun c => ?_
    obtain ⟨-, hpc, hheld, -, -⟩ := hs.1 c
    simp [ticket, hpc, hheld]
  · obtain ⟨hdepth, hpc, hheld, hbefore, -⟩ := hs.1 c
    refine ⟨by simp [hheld], by simp [hdepth, hheld, hpc, IrqPc.counts], fun hne => ?_, ?_⟩
    · exact absurd hheld hne
    · simp [IrqCpu.PcOk, hpc, hbefore]

end IrqState

/-- A processor that holds no lock has the flag it had before it took the first one, and interrupts
are off while it holds one. -/
theorem spinlock_irq_restores {C L : Type*} [DecidableEq C] [DecidableEq L] {s : IrqState C L}
    (h : ((irqSystem C L).restrict IrqState.KeepsFlags).Reachable s) (c : C) :
    ((s.cpu c).pc = .idle → (s.cpu c).held = [] → (s.cpu c).ints = (s.cpu c).before) ∧
      ((s.cpu c).held ≠ [] → (s.cpu c).ints = false) := by
  have hc := (IrqState.inv_of_reachable h).ok c
  refine ⟨fun hpc hheld => ?_, fun hne => (hc.nested hne).1⟩
  have hok := hc.pcOk
  simp only [IrqCpu.PcOk, hpc] at hok
  exact hok hheld

/-- Processors with the given flags that have not used any lock. -/
def IrqState.boot {C L : Type*} (ints : C → Bool) : IrqState C L where
  cpu c := ⟨ints c, 0, .idle, [], ints c, none⟩
  lock _ := .new
  interrupts _ := false

/-- A processor takes two locks and releases them in the reverse order, and another one waits for
the outer lock meanwhile. -/
theorem spinlock_irq_restores_nested : ∃ s : IrqState Bool Bool,
    ((irqSystem Bool Bool).restrict IrqState.KeepsFlags).Reachable s ∧
      (s.cpu true).ints = true ∧ (s.cpu false).held ≠ [] ∧ (s.cpu false).ints = false := by
  have h : ((irqSystem Bool Bool).restrict IrqState.KeepsFlags).Reachable _ := .of_foldlM
    (f := fun s e => if s.KeepsFlags e then s.step e else none)
    (fun s e s' h => by split at h; exacts [⟨‹_›, h⟩, by cases h])
    (List.flatten [[(true, .lock true)], List.replicate 5 (true, .run), [(true, .lock false)],
      List.replicate 4 (true, .run), [(false, .lock true)], List.replicate 4 (false, .run),
      [(true, .unlock false)], List.replicate 2 (true, .run), [(true, .unlock true)],
      List.replicate 3 (true, .run), [(false, .run)]])
    (.init (s := .boot fun _ => true) ⟨fun _ => ⟨rfl, rfl, rfl, rfl, rfl⟩, fun _ => rfl⟩) rfl
  refine ⟨_, h, (spinlock_irq_restores h true).1 rfl rfl, ?held, ?_⟩
  · exact List.cons_ne_nil _ _
  · exact (spinlock_irq_restores h false).2 (List.cons_ne_nil _ _)

/-- Interrupts stay off: a processor that releases the lock it took first before the other one
restores the flag of the other one, and a processor whose interrupts are off overwrites the flag of
the processor that holds the lock. -/
theorem spinlock_irq_loses_flag :
    (∃ s : IrqState Unit Bool, (irqSystem Unit Bool).Reachable s ∧ (s.cpu ()).pc = .idle ∧
      (s.cpu ()).held = [] ∧ (s.cpu ()).before = true ∧ (s.cpu ()).ints = false) ∧
    ∃ s : IrqState Bool Unit, (irqSystem Bool Unit).Reachable s ∧ (s.cpu true).pc = .idle ∧
      (s.cpu true).held = [] ∧ (s.cpu true).before = true ∧ (s.cpu true).ints = false := by
  constructor
  · have h : (irqSystem Unit Bool).Reachable _ := .of_foldlM (f := IrqState.step)
      (fun _ _ _ h => h)
      (List.flatten [[((), .lock true)], List.replicate 5 ((), .run), [((), .lock false)],
        List.replicate 4 ((), .run), [((), .unlock true)], List.replicate 2 ((), .run),
        [((), .unlock false)], List.replicate 3 ((), .run)])
      (.init (s := .boot fun _ => true) ⟨fun _ => ⟨rfl, rfl, rfl, rfl, rfl⟩, fun _ => rfl⟩) rfl
    exact ⟨_, h, rfl, rfl, rfl, rfl⟩
  · have h : (irqSystem Bool Unit).Reachable _ := .of_foldlM (f := IrqState.step)
      (fun _ _ _ h => h)
      (List.flatten [[(true, .lock ())], List.replicate 5 (true, .run), [(false, .lock ())],
        List.replicate 3 (false, .run), [(true, .unlock ())], List.replicate 3 (true, .run)])
      (.init (s := .boot id) ⟨fun _ => ⟨rfl, rfl, rfl, rfl, rfl⟩, fun _ => rfl⟩) rfl
    exact ⟨_, h, rfl, rfl, rfl, rfl⟩

end Ilobilix.Lib
