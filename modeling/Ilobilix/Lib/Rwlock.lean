import Ilobilix.Foundation.Counting
import Ilobilix.Foundation.Transition
import Mathlib.Data.Fintype.Basic

/-!
# The reader-writer lock

`rwlock_base` is two locks and a counter. The first reader takes `global` for all readers and the
last one releases it; `readers` protects the counter. The model takes the operations of the two
locks as atomic, whatever their type is, and each other access to the counter or to a lock is a step
of its own.

A reader increments the counter before it waits for `global`. `write_unlock` asserts that the
counter is zero, so its `bug_on` fires when a reader waits for the writer. Exclusion does not depend
on the assertions.
-/

namespace Ilobilix.Lib

/-- Where a thread is: the name says what it does next, apart from `out`, `reading` and `writing`. -/
inductive RwPc
  | out
  /-- `read_lock` before `readers.lock`. -/
  | readLock
  | countUp
  | globalLock
  /-- `read_lock` before `readers.unlock`. -/
  | readersUnlock
  /-- Between `read_lock` and `read_unlock`, whose assertion is next. -/
  | reading
  /-- `read_unlock` before `readers.lock`. -/
  | readUnlock
  | countDown
  | globalUnlock
  /-- `read_unlock` before `readers.unlock`. -/
  | leave
  | writeLock
  /-- Between `write_lock` and `write_unlock`, whose assertion is next. -/
  | writing
  | writeUnlock
  deriving DecidableEq

structure RwState (T : Type*) where
  counter : ℕ
  /-- `readers` is locked. -/
  readers : Bool
  /-- `global` is locked. -/
  globalLocked : Bool
  /-- One of the `bug_on` has fired. -/
  bug : Bool
  pc : T → RwPc

/-- A thread outside the lock starts one of the two pairs; any other thread continues. -/
inductive RwStep
  | readLock
  | writeLock
  | run

namespace RwPc

/-- The thread holds `readers`. -/
def holdsReaders : RwPc → Prop
  | .countUp | .globalLock | .readersUnlock | .countDown | .globalUnlock | .leave => True
  | _ => False

/-- The counter counts the thread. -/
def counted : RwPc → Prop
  | .globalLock | .readersUnlock | .reading | .readUnlock | .countDown => True
  | _ => False

/-- The thread relies on `global` being locked for the readers. -/
def reads : RwPc → Prop
  | .readersUnlock | .reading | .readUnlock | .countDown | .globalUnlock => True
  | _ => False

/-- The thread has locked `global` as a writer. -/
def writes : RwPc → Prop
  | .writing | .writeUnlock => True
  | _ => False

end RwPc

namespace RwState

variable {T : Type*} [DecidableEq T]

def isReadLocked (s : RwState T) : Bool := s.globalLocked && decide (0 < s.counter)

def isWriteLocked (s : RwState T) : Bool := s.globalLocked && s.counter == 0

def setPc (s : RwState T) (t : T) (pc : RwPc) : RwState T :=
  { s with pc := Function.update s.pc t pc }

/-- One step of thread `t`; `none` if it has to wait for a lock. -/
def step (s : RwState T) : T × RwStep → Option (RwState T)
  | (t, .readLock) => if s.pc t = .out then some (s.setPc t .readLock) else none
  | (t, .writeLock) => if s.pc t = .out then some (s.setPc t .writeLock) else none
  | (t, .run) =>
      match s.pc t with
      | .out => none
      | .readLock => if s.readers then none else some { s.setPc t .countUp with readers := true }
      | .countUp =>
          let counter := s.counter + 1
          some { s.setPc t (if counter = 1 then .globalLock else .readersUnlock) with
            counter := counter }
      | .globalLock =>
          if s.globalLocked then none
          else some { s.setPc t .readersUnlock with globalLocked := true }
      | .readersUnlock => some { s.setPc t .reading with readers := false }
      | .reading =>
          if s.isReadLocked then some (s.setPc t .readUnlock) else some { s with bug := true }
      | .readUnlock => if s.readers then none else some { s.setPc t .countDown with readers := true }
      | .countDown =>
          let counter := s.counter - 1
          some { s.setPc t (if counter = 0 then .globalUnlock else .leave) with counter := counter }
      | .globalUnlock => some { s.setPc t .leave with globalLocked := false }
      | .leave => some { s.setPc t .out with readers := false }
      | .writeLock =>
          if s.globalLocked then none else some { s.setPc t .writing with globalLocked := true }
      | .writing =>
          if s.isWriteLocked then some (s.setPc t .writeUnlock) else some { s with bug := true }
      | .writeUnlock => some { s.setPc t .out with globalLocked := false }

end RwState

/-- Any number of threads that lock and unlock for reading or writing in matched pairs. -/
def rwlockSystem (T : Type*) [DecidableEq T] : TransitionSystem (RwState T) (T × RwStep) :=
  .ofStep ⟨0, false, false, false, fun _ => .out⟩ RwState.step

/-! ## What a step does -/

namespace RwState

variable {T : Type*} [DecidableEq T] {s s' : RwState T} {t : T}

/-- The transitions with their guards. -/
inductive Moves (s : RwState T) (t : T) : RwState T → Prop
  | beginRead (h : s.pc t = .out) : Moves s t (s.setPc t .readLock)
  | beginWrite (h : s.pc t = .out) : Moves s t (s.setPc t .writeLock)
  | lockReaders {pc : RwPc} (hr : s.readers = false)
      (h : s.pc t = .readLock ∧ pc = .countUp ∨ s.pc t = .readUnlock ∧ pc = .countDown) :
      Moves s t { s.setPc t pc with readers := true }
  | firstReader (h : s.pc t = .countUp) (hc : s.counter = 0) :
      Moves s t { s.setPc t .globalLock with counter := 1 }
  | nextReader (h : s.pc t = .countUp) (hc : 0 < s.counter) :
      Moves s t { s.setPc t .readersUnlock with counter := s.counter + 1 }
  | readGlobal (h : s.pc t = .globalLock) (hg : s.globalLocked = false) :
      Moves s t { s.setPc t .readersUnlock with globalLocked := true }
  | unlockReaders {pc : RwPc}
      (h : s.pc t = .readersUnlock ∧ pc = .reading ∨ s.pc t = .leave ∧ pc = .out) :
      Moves s t { s.setPc t pc with readers := false }
  | endRead (h : s.pc t = .reading) : Moves s t (s.setPc t .readUnlock)
  | lastReader (h : s.pc t = .countDown) (hc : s.counter - 1 = 0) :
      Moves s t { s.setPc t .globalUnlock with counter := 0 }
  | otherReader (h : s.pc t = .countDown) (hc : s.counter - 1 ≠ 0) :
      Moves s t { s.setPc t .leave with counter := s.counter - 1 }
  | unlockGlobal (h : s.pc t = .globalUnlock) :
      Moves s t { s.setPc t .leave with globalLocked := false }
  | writeGlobal (h : s.pc t = .writeLock) (hg : s.globalLocked = false) :
      Moves s t { s.setPc t .writing with globalLocked := true }
  | endWrite (h : s.pc t = .writing) : Moves s t (s.setPc t .writeUnlock)
  | unlockWrite (h : s.pc t = .writeUnlock) :
      Moves s t { s.setPc t .out with globalLocked := false }
  | readBug (h : s.pc t = .reading) (hb : s.isReadLocked = false) : Moves s t { s with bug := true }
  | writeBug (h : s.pc t = .writing) (hb : s.isWriteLocked = false) :
      Moves s t { s with bug := true }

theorem moves_of_run (h : s.step (t, .run) = some s') : s.Moves t s' := by
  simp only [step] at h
  cases hpc : s.pc t <;> simp only [hpc] at h
  case out => cases h
  case readLock =>
    cases hr : s.readers <;> simp only [hr, if_true, Bool.false_eq_true, if_false] at h <;> cases h
    exact .lockReaders hr (.inl ⟨hpc, rfl⟩)
  case countUp =>
    by_cases hc : s.counter + 1 = 1 <;> simp only [hc, if_true, if_false] at h <;> cases h
    · exact .firstReader hpc (by omega)
    · exact .nextReader hpc (by omega)
  case globalLock =>
    cases hg : s.globalLocked <;> simp only [hg, if_true, Bool.false_eq_true, if_false] at h <;>
      cases h
    exact .readGlobal hpc hg
  case readersUnlock =>
    cases h
    exact .unlockReaders (.inl ⟨hpc, rfl⟩)
  case reading =>
    cases hb : s.isReadLocked <;> simp only [hb, if_true, Bool.false_eq_true, if_false] at h <;>
      cases h
    · exact .readBug hpc hb
    · exact .endRead hpc
  case readUnlock =>
    cases hr : s.readers <;> simp only [hr, if_true, Bool.false_eq_true, if_false] at h <;> cases h
    exact .lockReaders hr (.inr ⟨hpc, rfl⟩)
  case countDown =>
    by_cases hc : s.counter - 1 = 0
    · simp only [hc, if_true] at h
      cases h
      exact .lastReader hpc hc
    · simp only [hc, if_false] at h
      cases h
      exact .otherReader hpc hc
  case globalUnlock =>
    cases h
    exact .unlockGlobal hpc
  case leave =>
    cases h
    exact .unlockReaders (.inr ⟨hpc, rfl⟩)
  case writeLock =>
    cases hg : s.globalLocked <;> simp only [hg, if_true, Bool.false_eq_true, if_false] at h <;>
      cases h
    exact .writeGlobal hpc hg
  case writing =>
    cases hb : s.isWriteLocked <;> simp only [hb, if_true, Bool.false_eq_true, if_false] at h <;>
      cases h
    · exact .writeBug hpc hb
    · exact .endWrite hpc
  case writeUnlock =>
    cases h
    exact .unlockWrite hpc

theorem moves_of_step {l : RwStep} (h : s.step (t, l) = some s') : s.Moves t s' := by
  cases l with
  | readLock =>
      simp only [step] at h
      split at h
      · cases h
        exact .beginRead ‹_›
      · cases h
  | writeLock =>
      simp only [step] at h
      split at h
      · cases h
        exact .beginWrite ‹_›
      · cases h
  | run => exact moves_of_run h

/-! ## The counter

`readers` protects the counter: while a thread is about to lock or unlock `global` for the readers,
the counter says that it is the only one. -/

structure Counter (s : RwState T) : Prop where
  owner : Owns s.readers s.pc RwPc.holdsReaders
  count : HasCount s.pc RwPc.counted s.counter
  first : ∀ u, s.pc u = .globalLock → s.counter = 1
  last : ∀ u, s.pc u = .globalUnlock → s.counter = 0

/-- Nobody but the owner of `readers` is about to use `global` for the readers. -/
theorem Counter.places (h : s.Counter) (ht : (s.pc t).holdsReaders) (pc : RwPc) (counter : ℕ)
    (hfirst : pc = .globalLock → counter = 1) (hlast : pc = .globalUnlock → counter = 0) (u : T) :
    (Function.update s.pc t pc u = .globalLock → counter = 1) ∧
      (Function.update s.pc t pc u = .globalUnlock → counter = 0) := by
  by_cases hu : u = t
  · subst hu
    simpa using ⟨hfirst, hlast⟩
  · rw [Function.update_of_ne hu]
    constructor <;> intro hpc <;>
      exact absurd (h.owner.unique u t (by simp [hpc, RwPc.holdsReaders]) ht) hu

/-- A move that leaves the counter alone, and does not lead to `global` for the readers. -/
theorem Counter.setPc (h : s.Counter) {pc : RwPc} {readers : Bool}
    (howner : Owns readers (Function.update s.pc t pc) RwPc.holdsReaders)
    (hcount : pc.counted ↔ (s.pc t).counted) (hfirst : pc ≠ .globalLock)
    (hlast : pc ≠ .globalUnlock) {globalLocked : Bool} :
    Counter { s.setPc t pc with readers := readers, globalLocked := globalLocked } := by
  refine ⟨howner, h.count.stay hcount, fun u hu => ?_, fun u hu => ?_⟩ <;> by_cases hut : u = t
  · subst hut
    simp [RwState.setPc, hfirst] at hu
  · simp only [RwState.setPc, Function.update_of_ne hut] at hu
    exact h.first u hu
  · subst hut
    simp [RwState.setPc, hlast] at hu
  · simp only [RwState.setPc, Function.update_of_ne hut] at hu
    exact h.last u hu

theorem Counter.moves (h : s.Counter) (hm : s.Moves t s') : s'.Counter := by
  cases hm with
  | beginRead hpc | beginWrite hpc | writeGlobal hpc _ | endWrite hpc | unlockWrite hpc
  | endRead hpc =>
      exact h.setPc (h.owner.stay (by simp [RwPc.holdsReaders])) (by simp [hpc, RwPc.counted])
        (by simp) (by simp)
  | readGlobal hpc _ | unlockGlobal hpc =>
      exact h.setPc (h.owner.stay (by simp [hpc, RwPc.holdsReaders])) (by simp [hpc, RwPc.counted])
        (by simp) (by simp)
  | lockReaders hr hpc =>
      obtain ⟨hpc, rfl⟩ | ⟨hpc, rfl⟩ := hpc <;>
        exact h.setPc (h.owner.acquire hr) (by simp [hpc, RwPc.counted]) (by simp) (by simp)
  | unlockReaders hpc =>
      obtain ⟨hpc, rfl⟩ | ⟨hpc, rfl⟩ := hpc <;>
        exact h.setPc (h.owner.release (by simp [hpc, RwPc.holdsReaders])
          (by simp [RwPc.holdsReaders])) (by simp [hpc, RwPc.counted]) (by simp) (by simp)
  | firstReader hpc hc =>
      have hplaces := h.places (t := t) (by simp [hpc, RwPc.holdsReaders]) .globalLock 1 (by simp)
        (by simp)
      have hcount := h.count.enter (a := t) (b := .globalLock) (by simp [hpc, RwPc.counted])
        (by simp [RwPc.counted])
      rw [hc] at hcount
      exact ⟨h.owner.stay (by simp [hpc, RwPc.holdsReaders]), hcount, fun u => (hplaces u).1,
        fun u => (hplaces u).2⟩
  | nextReader hpc hc =>
      have hplaces := h.places (t := t) (by simp [hpc, RwPc.holdsReaders]) .readersUnlock
        (s.counter + 1) (by simp) (by simp)
      exact ⟨h.owner.stay (by simp [hpc, RwPc.holdsReaders]),
        h.count.enter (by simp [hpc, RwPc.counted]) (by simp [RwPc.counted]),
        fun u => (hplaces u).1, fun u => (hplaces u).2⟩
  | lastReader hpc hc =>
      have hplaces := h.places (t := t) (by simp [hpc, RwPc.holdsReaders]) .globalUnlock 0
        (by simp) (by simp)
      have hcount := h.count.leave (a := t) (b := .globalUnlock) (by simp [hpc, RwPc.counted])
        (by simp [RwPc.counted])
      rw [hc] at hcount
      exact ⟨h.owner.stay (by simp [hpc, RwPc.holdsReaders]), hcount, fun u => (hplaces u).1,
        fun u => (hplaces u).2⟩
  | otherReader hpc hc =>
      have hplaces := h.places (t := t) (by simp [hpc, RwPc.holdsReaders]) .leave
        (s.counter - 1) (by simp) (by simp)
      exact ⟨h.owner.stay (by simp [hpc, RwPc.holdsReaders]),
        h.count.leave (by simp [hpc, RwPc.counted]) (by simp [RwPc.counted]),
        fun u => (hplaces u).1, fun u => (hplaces u).2⟩
  | readBug _ _ | writeBug _ _ => exact ⟨h.owner, h.count, h.first, h.last⟩

/-! ## Exclusion -/

/-- `global` is locked by one writer, or for the readers. -/
structure Exclusive (s : RwState T) : Prop where
  writers : Owns s.globalLocked s.pc RwPc.writes
  readers : ∀ u, (s.pc u).reads → s.globalLocked = true ∧ ∀ v, ¬(s.pc v).writes

omit [DecidableEq T] in
/-- Once a reader has left `global.lock` behind, `global` is locked and no writer is inside. The
owner of `readers` sees that from the counter. -/
theorem Exclusive.of_counter_pos (h : s.Exclusive) (hc : s.Counter) (hpos : 0 < s.counter)
    (ht : (s.pc t).holdsReaders) (hpc : s.pc t ≠ .globalLock) :
    s.globalLocked = true ∧ ∀ v, ¬(s.pc v).writes := by
  obtain ⟨u, hu⟩ := hc.count.exists_of_pos hpos
  refine h.readers u ?_
  cases hu' : s.pc u with
  | globalLock =>
      have hut := hc.owner.unique u t (by simp [hu', RwPc.holdsReaders]) ht
      exact absurd (hut ▸ hu') hpc
  | _ => simp_all [RwPc.counted, RwPc.reads]

/-- A thread that comes to read only when `global` is locked for the readers. -/
theorem Exclusive.setPc (h : s.Exclusive) {pc : RwPc} (hw : pc.writes → (s.pc t).writes)
    (hr : pc.reads → s.globalLocked = true ∧ ∀ v, ¬(s.pc v).writes) {readers : Bool} {counter : ℕ} :
    Exclusive { s.setPc t pc with readers := readers, counter := counter } := by
  refine ⟨h.writers.stay hw, fun u hu => ?_⟩
  have hu' : s.globalLocked = true ∧ ∀ v, ¬(s.pc v).writes := by
    by_cases hut : u = t
    · subst hut
      simp only [RwState.setPc, Function.update_self] at hu
      exact hr hu
    · simp only [RwState.setPc, Function.update_of_ne hut] at hu
      exact h.readers u hu
  refine ⟨hu'.1, fun v hv => ?_⟩
  by_cases hvt : v = t
  · subst hvt
    simp only [RwState.setPc, Function.update_self] at hv
    exact hu'.2 v (hw hv)
  · simp only [RwState.setPc, Function.update_of_ne hvt] at hv
    exact hu'.2 v hv

omit [DecidableEq T] in
theorem Exclusive.free (h : s.Exclusive) (hg : s.globalLocked = false) (u : T) :
    ¬(s.pc u).writes ∧ ¬(s.pc u).reads := by
  refine ⟨fun hu => ?_, fun hu => ?_⟩
  · have := h.writers.held u hu
    rw [hg] at this
    cases this
  · have := (h.readers u hu).1
    rw [hg] at this
    cases this

theorem Exclusive.readGlobal (h : s.Exclusive) (hg : s.globalLocked = false) :
    Exclusive { s.setPc t .readersUnlock with globalLocked := true } := by
  refine ⟨h.writers.acquire hg, fun u _ => ⟨rfl, fun v hv => ?_⟩⟩
  by_cases hvt : v = t
  · simp [RwState.setPc, hvt, RwPc.writes] at hv
  · simp only [RwState.setPc, Function.update_of_ne hvt] at hv
    exact (h.free hg v).1 hv

theorem Exclusive.writeGlobal (h : s.Exclusive) (hg : s.globalLocked = false) :
    Exclusive { s.setPc t .writing with globalLocked := true } := by
  refine ⟨h.writers.acquire hg, fun u hu => ?_⟩
  exfalso
  by_cases hut : u = t
  · simp [RwState.setPc, hut, RwPc.reads] at hu
  · simp only [RwState.setPc, Function.update_of_ne hut] at hu
    exact (h.free hg u).2 hu

theorem Exclusive.unlockWrite (h : s.Exclusive) (hpc : s.pc t = .writeUnlock) :
    Exclusive { s.setPc t .out with globalLocked := false } := by
  have ht : (s.pc t).writes := by simp [hpc, RwPc.writes]
  refine ⟨h.writers.release ht (by simp [RwPc.writes]), fun u hu => ?_⟩
  exfalso
  by_cases hut : u = t
  · simp [RwState.setPc, hut, RwPc.reads] at hu
  · simp only [RwState.setPc, Function.update_of_ne hut] at hu
    exact (h.readers u hu).2 t ht

/-- The last reader leaves nobody behind: the counter is zero and the others do not own
`readers`. -/
theorem Exclusive.unlockGlobal (h : s.Exclusive) (hc : s.Counter) (hpc : s.pc t = .globalUnlock) :
    Exclusive { s.setPc t .leave with globalLocked := false } := by
  have ht : (s.pc t).reads := by simp [hpc, RwPc.reads]
  have hwriters : ∀ v, ¬(Function.update s.pc t .leave v).writes := fun v hv => by
    by_cases hvt : v = t
    · simp [hvt, RwPc.writes] at hv
    · rw [Function.update_of_ne hvt] at hv
      exact (h.readers t ht).2 v hv
  have hreaders : ∀ u, ¬(Function.update s.pc t .leave u).reads := fun u hu => by
    by_cases hut : u = t
    · simp [hut, RwPc.reads] at hu
    · rw [Function.update_of_ne hut] at hu
      by_cases hcounted : (s.pc u).counted
      · have hpos := hc.count.pos hcounted
        have hzero := hc.last t hpc
        omega
      · have hu' : s.pc u = .globalUnlock := by
          cases hpcu : s.pc u <;> simp_all [RwPc.reads, RwPc.counted]
        exact hut (hc.owner.unique u t (by simp [hu', RwPc.holdsReaders])
          (by simp [hpc, RwPc.holdsReaders]))
  exact ⟨⟨fun v hv => absurd hv (hwriters v), fun v _ hv => absurd hv (hwriters v)⟩,
    fun u hu => absurd hu (hreaders u)⟩

theorem Exclusive.moves (hc : s.Counter) (h : s.Exclusive) (hm : s.Moves t s') :
    s'.Exclusive := by
  cases hm with
  | beginRead _ | beginWrite _ | firstReader _ _ | otherReader _ _ =>
      exact h.setPc (by simp [RwPc.writes]) (by simp [RwPc.reads])
  | endRead hpc | lastReader hpc _ =>
      exact h.setPc (by simp [RwPc.writes]) fun _ => h.readers t (by simp [hpc, RwPc.reads])
  | endWrite hpc => exact h.setPc (by simp [hpc, RwPc.writes]) (by simp [RwPc.reads])
  | lockReaders _ hpc =>
      obtain ⟨hpc, rfl⟩ | ⟨hpc, rfl⟩ := hpc
      · exact h.setPc (by simp [RwPc.writes]) (by simp [RwPc.reads])
      · exact h.setPc (by simp [RwPc.writes]) fun _ => h.readers t (by simp [hpc, RwPc.reads])
  | unlockReaders hpc =>
      obtain ⟨hpc, rfl⟩ | ⟨hpc, rfl⟩ := hpc
      · exact h.setPc (by simp [RwPc.writes]) fun _ => h.readers t (by simp [hpc, RwPc.reads])
      · exact h.setPc (by simp [RwPc.writes]) (by simp [RwPc.reads])
  | nextReader hpc hpos =>
      exact h.setPc (by simp [RwPc.writes]) fun _ =>
        h.of_counter_pos hc hpos (t := t) (by simp [hpc, RwPc.holdsReaders]) (by simp [hpc])
  | readGlobal _ hg => exact h.readGlobal hg
  | unlockGlobal hpc => exact h.unlockGlobal hc hpc
  | writeGlobal _ hg => exact h.writeGlobal hg
  | unlockWrite hpc => exact h.unlockWrite hpc
  | readBug _ _ | writeBug _ _ => exact ⟨h.writers, h.readers⟩

/-! ## The assertions -/

/-- `write_unlock` is not called while a reader waits for `global`. -/
def NoReaderWaits (s : RwState T) : T × RwStep → Prop
  | (t, _) => s.pc t = .writing → ∀ u, s.pc u ≠ .globalLock

instance [Fintype T] (s : RwState T) (l : T × RwStep) : Decidable (s.NoReaderWaits l) :=
  inferInstanceAs (Decidable (s.pc l.1 = .writing → ∀ u, s.pc u ≠ .globalLock))

omit [DecidableEq T] in
theorem isReadLocked_of_reading (hc : s.Counter) (h : s.Exclusive) (hpc : s.pc t = .reading) :
    s.isReadLocked = true := by
  have hg := (h.readers t (by simp [hpc, RwPc.reads])).1
  have hpos := hc.count.pos (a := t) (by simp [hpc, RwPc.counted])
  simp [isReadLocked, hg, hpos]

omit [DecidableEq T] in
/-- The counter is zero unless a reader waits for the writer. -/
theorem isWriteLocked_of_writing (hc : s.Counter) (h : s.Exclusive) (hpc : s.pc t = .writing)
    (hwait : ∀ u, s.pc u ≠ .globalLock) : s.isWriteLocked = true := by
  have ht : (s.pc t).writes := by simp [hpc, RwPc.writes]
  have hzero : s.counter = 0 := by
    by_contra hne
    obtain ⟨u, hu⟩ := hc.count.exists_of_pos (Nat.pos_of_ne_zero hne)
    have hreads : (s.pc u).reads := by
      have := hwait u
      cases hu' : s.pc u <;> simp_all [RwPc.counted, RwPc.reads]
    exact (h.readers u hreads).2 t ht
  simp [isWriteLocked, h.writers.held t ht, hzero]

theorem bug_of_moves (hc : s.Counter) (h : s.Exclusive) (hb : s.bug = false)
    (hwait : s.pc t = .writing → ∀ u, s.pc u ≠ .globalLock) (hm : s.Moves t s') :
    s'.bug = false := by
  cases hm with
  | readBug hpc hbug =>
      rw [isReadLocked_of_reading hc h hpc] at hbug
      cases hbug
  | writeBug hpc hbug =>
      rw [isWriteLocked_of_writing hc h hpc (hwait hpc)] at hbug
      cases hbug
  | _ => exact hb

/-! ## Every run -/

theorem inv_of_reachable (h : (rwlockSystem T).Reachable s) : s.Counter ∧ s.Exclusive := by
  refine h.invariant (I := fun s => s.Counter ∧ s.Exclusive) ?_ fun s l s' _ hI hs => ?_
  · rintro s rfl
    exact ⟨⟨⟨by simp [RwPc.holdsReaders], by simp [RwPc.holdsReaders]⟩,
      .zero (by simp [RwPc.counted]), by simp, by simp⟩,
      ⟨⟨by simp [RwPc.writes], by simp [RwPc.writes]⟩, by simp [RwPc.reads]⟩⟩
  · have hm := moves_of_step hs
    exact ⟨hI.1.moves hm, hI.2.moves hI.1 hm⟩

end RwState

/-- Writers exclude readers and each other, and in every run in which no reader waits for `global`
when `write_unlock` is called, no assertion fails. -/
theorem rwlock_safe {T : Type*} [DecidableEq T] {s : RwState T}
    (h : ((rwlockSystem T).restrict RwState.NoReaderWaits).Reachable s) :
    (∀ t u, (s.pc t).writes → ¬(s.pc u).reads ∧ ((s.pc u).writes → t = u)) ∧ s.bug = false := by
  refine ⟨fun t u ht => ?_, ?_⟩
  · have hx := (RwState.inv_of_reachable h.of_restrict).2
    exact ⟨fun hu => (hx.readers u hu).2 t ht, fun hu => hx.writers.unique t u ht hu⟩
  · refine h.invariant (I := fun s => s.bug = false) (fun s hs => by rw [hs]) fun s l s' hr hb hs => ?_
    obtain ⟨hc, hx⟩ := RwState.inv_of_reachable hr.of_restrict
    exact RwState.bug_of_moves hc hx hb hs.1 (RwState.moves_of_step hs.2)

/-- Two readers at once, then a writer while a reader waits for `readers`. -/
theorem rwlock_safe_shared : ∃ s : RwState Bool,
    ((rwlockSystem Bool).restrict RwState.NoReaderWaits).Reachable s ∧ s.pc true = .writing ∧
      (∀ t u, (s.pc t).writes → ¬(s.pc u).reads ∧ ((s.pc u).writes → t = u)) ∧ s.bug = false := by
  have h : ((rwlockSystem Bool).restrict RwState.NoReaderWaits).Reachable _ := .ofStep_restrict
    [(true, .readLock), (true, .run), (true, .run), (true, .run), (true, .run), (false, .readLock),
      (false, .run), (false, .run), (false, .run), (true, .run), (true, .run), (true, .run),
      (true, .run), (false, .run), (false, .run), (false, .run), (false, .run), (false, .run),
      (true, .writeLock), (true, .run), (false, .readLock)] rfl
  exact ⟨_, h, rfl, rwlock_safe h⟩

/-- A reader waits for the writer, and the writer's `write_unlock` fails its assertion. -/
theorem write_unlock_bug : ∃ s : RwState Bool, (rwlockSystem Bool).Reachable s ∧ s.bug = true :=
  ⟨_, .ofStep [(true, .writeLock), (true, .run), (false, .readLock), (false, .run), (false, .run),
    (true, .run)] rfl, rfl⟩

end Ilobilix.Lib
