import Ilobilix.Foundation.Transition
import Mathlib.Algebra.GroupWithZero.Nat
import Mathlib.Data.Fintype.Card
import Mathlib.Data.List.Nodup
import Mathlib.Logic.Function.Basic

/-!
# The ticket spinlock, one atomic access at a time

`spinlock_base<lock_type::none>` with both counters as they are, 64 bits wide. `lock` takes a ticket
with one `fetch_add` and then loads the ticket being served until it is its own. `unlock` and
`try_lock` load the two counters one after the other, and `unlock` loads the ticket being served
once more before it stores the next one.

The state also records who took a ticket and who got in, in order. With them the counters are
lengths: `next_ticket` counts the tickets taken and `serving_ticket` the locks released, modulo
`2 ^ 64`. As fewer than `2 ^ 64` tickets are out at a time, equal tickets are the same ticket.
-/

namespace Ilobilix.Lib

/-- Where a processor is in the code of the lock. -/
inductive TicketPc
  | idle
  /-- `try_lock` has loaded the ticket being served. -/
  | tried (current : BitVec 64)
  /-- At the start of `lock`. -/
  | locking
  /-- In the loop of `lock`, with its ticket. -/
  | spin (ticket : BitVec 64)
  /-- `lock` has returned. -/
  | inside
  /-- `unlock` has loaded the ticket being served, for `is_locked`. -/
  | checking (current : BitVec 64)
  /-- `is_locked` has returned true. -/
  | releasing
  /-- `unlock` has loaded the ticket being served again and is going to store the next one. -/
  | storing (current : BitVec 64)
  /-- `unlock` has returned false. -/
  | refused
deriving DecidableEq

namespace TicketPc

/-- The processor has the lock. -/
@[simp] def hasLock : TicketPc → Bool
  | inside | checking _ | releasing | storing _ | refused => true
  | idle | tried _ | locking | spin _ => false

/-- The processor has a ticket that is not served to the end. -/
@[simp] def hasTicket : TicketPc → Bool
  | idle | tried _ | locking => false
  | spin _ | inside | checking _ | releasing | storing _ | refused => true

/-- The ticket being served, as `unlock` has loaded it. -/
@[simp] def loaded : TicketPc → Option (BitVec 64)
  | checking current | storing current => some current
  | idle | tried _ | locking | spin _ | inside | releasing | refused => none

end TicketPc

structure TicketState (C : Type*) where
  nextTicket : BitVec 64
  servingTicket : BitVec 64
  pc : C → TicketPc
  /-- Who took a ticket, first to last. -/
  taken : List C
  /-- Who got the lock, first to last. -/
  entered : List C

inductive TicketStep
  | lock
  | tryLock
  | unlock
  /-- The next access of the call the processor is in. -/
  | run

namespace TicketState

variable {C : Type*} [DecidableEq C]

def setPc (s : TicketState C) (c : C) (pc : TicketPc) : TicketState C :=
  { s with pc := Function.update s.pc c pc }

/-- One access of a processor inside a call. -/
def run (s : TicketState C) (c : C) : Option (TicketState C) :=
  match s.pc c with
  | .idle | .inside | .refused => none
  -- `if (is_locked()) return false;`
  | .tried current => some (s.setPc c (if current ≠ s.nextTicket then .idle else .locking))
  | .locking =>
      some { s.setPc c (.spin s.nextTicket) with
        nextTicket := s.nextTicket + 1, taken := s.taken ++ [c] }
  | .spin ticket =>
      if s.servingTicket ≠ ticket then some s
      else some { s.setPc c .inside with entered := s.entered ++ [c] }
  -- `if (is_locked() == false) return false;`
  | .checking current =>
      some (s.setPc c (if current ≠ s.nextTicket then .releasing else .refused))
  | .releasing => some (s.setPc c (.storing s.servingTicket))
  | .storing current => some { s.setPc c .idle with servingTicket := current + 1 }

/-- One step of a processor. `unlock` is called by the holder only. -/
def step (s : TicketState C) (c : C) : TicketStep → Option (TicketState C)
  | .lock => if s.pc c = .idle then some (s.setPc c .locking) else none
  | .tryLock => if s.pc c = .idle then some (s.setPc c (.tried s.servingTicket)) else none
  | .unlock => if s.pc c = .inside then some (s.setPc c (.checking s.servingTicket)) else none
  | .run => s.run c

/-- A lock nobody has used. -/
def new : TicketState C where
  nextTicket := 0
  servingTicket := 0
  pc _ := .idle
  taken := []
  entered := []

end TicketState

/-- The runs of the processors with one lock. -/
def ticketSystem (C : Type*) [DecidableEq C] : TransitionSystem (TicketState C) (C × TicketStep) :=
  .ofStep .new fun s l => s.step l.1 l.2

/-- Tickets that are less than `2 ^ 64` apart and look the same are the same. -/
theorem eq_of_ofNat_eq {i j : ℕ} (hle : j ≤ i) (hlt : i - j < 2 ^ 64)
    (h : BitVec.ofNat 64 i = BitVec.ofNat 64 j) : i = j := by
  have hmod := congrArg BitVec.toNat h
  simp only [BitVec.toNat_ofNat] at hmod
  omega

namespace TicketState

variable {C : Type*}

/-- The first `released` tickets have been served to the end. The ticket after them is the one being
served, and its owner is the only processor that may have the lock. -/
structure Inv (s : TicketState C) (released : ℕ) : Prop where
  next : s.nextTicket = BitVec.ofNat 64 s.taken.length
  serving : s.servingTicket = BitVec.ofNat 64 released
  le : released ≤ s.taken.length
  nodup : (s.taken.drop released).Nodup
  holds : ∀ c, (s.pc c).hasTicket = true ↔ c ∈ s.taken.drop released
  ticket : ∀ c k, s.pc c = .spin k →
    ∃ i, s.taken[i]? = some c ∧ released ≤ i ∧ k = BitVec.ofNat 64 i
  owner : ∀ c, (s.pc c).hasLock = true →
    s.taken[released]? = some c ∧ s.entered = s.taken.take (released + 1)
  free : (∀ c, (s.pc c).hasLock = false) → s.entered = s.taken.take released
  loaded : ∀ c current, (s.pc c).loaded = some current → current = s.servingTicket
  granted : ∀ c, s.pc c ≠ .refused

variable {s s' : TicketState C} {released : ℕ} {c : C}

theorem inv_new : (new : TicketState C).Inv 0 where
  next := rfl
  serving := rfl
  le := Nat.le_refl _
  nodup := List.nodup_nil
  holds c := iff_of_false Bool.false_ne_true List.not_mem_nil
  ticket c k h := by cases h
  owner c h := by cases h
  free _ := rfl
  loaded c current h := by cases h
  granted c h := by cases h

namespace Inv

/-- Only the owner of the ticket being served has the lock. -/
theorem unique (h : s.Inv released) {d : C} (hc : (s.pc c).hasLock = true)
    (hd : (s.pc d).hasLock = true) : c = d :=
  Option.some.inj ((h.owner c hc).1.symm.trans (h.owner d hd).1)

/-- Fewer tickets are out than there are processors. -/
theorem length_le [Fintype C] (h : s.Inv released) :
    s.taken.length - released ≤ Fintype.card C := by
  rw [← List.length_drop]
  exact h.nodup.length_le_card

/-- The holder finds the lock locked: its own ticket is out, and too few are for the counters to
meet. -/
theorem next_ne [Fintype C] (hcard : Fintype.card C < 2 ^ 64) (h : s.Inv released)
    (hc : (s.pc c).hasLock = true) : s.servingTicket ≠ s.nextTicket := by
  obtain ⟨hlt, -⟩ := List.getElem?_eq_some_iff.mp (h.owner c hc).1
  have hlength := h.length_le
  intro heq
  rw [h.serving, h.next] at heq
  have := eq_of_ofNat_eq h.le (by omega) heq.symm
  omega

/-- What the processors got the lock in is the order of the tickets. -/
theorem entered_prefix (h : s.Inv released) : s.entered <+: s.taken := by
  by_cases hfree : ∀ c, (s.pc c).hasLock = false
  · rw [h.free hfree]
    exact List.take_prefix _ _
  · obtain ⟨c, hc⟩ := not_forall.mp hfree
    rw [(h.owner c (Bool.not_eq_false _ ▸ hc)).2]
    exact List.take_prefix _ _

variable [DecidableEq C]

/-- A step that neither takes nor serves a ticket, and that nobody gets the lock by. -/
theorem setPc (h : s.Inv released) {pc : TicketPc} (hticket : pc.hasTicket = (s.pc c).hasTicket)
    (hlock : pc.hasLock = (s.pc c).hasLock) (hspin : ∀ k, pc = .spin k → s.pc c = .spin k)
    (hloaded : ∀ current, pc.loaded = some current → current = s.servingTicket)
    (hgranted : pc ≠ .refused) : (s.setPc c pc).Inv released := by
  have hpc : ∀ d, (s.setPc c pc).pc d = if d = c then pc else s.pc d :=
    fun d => Function.update_apply _ _ _ _
  have hsame : ∀ d, ((s.setPc c pc).pc d).hasLock = (s.pc d).hasLock := by
    intro d
    rw [hpc]
    split
    · rw [hlock, ‹d = c›]
    · rfl
  refine ⟨h.next, h.serving, h.le, h.nodup, fun d => ?_, fun d k hd => ?_, fun d hd => ?_,
    fun hfree => ?_, fun d current hd => ?_, fun d => ?_⟩
  · refine Iff.trans ?_ (h.holds d)
    rw [hpc]
    split
    · rw [hticket, ‹d = c›]
    · rfl
  · rw [hpc] at hd
    split at hd
    · exact h.ticket d k (‹d = c› ▸ hspin k hd)
    · exact h.ticket d k hd
  · exact h.owner d (hsame d ▸ hd)
  · exact h.free fun d => hsame d ▸ hfree d
  · rw [hpc] at hd
    split at hd
    · exact hloaded current hd
    · exact h.loaded d current hd
  · rw [hpc]
    split
    · exact hgranted
    · exact h.granted d

/-- `fetch_add` hands out the ticket after the last one. -/
theorem take (h : s.Inv released) (hc : s.pc c = .locking) :
    Inv { s.setPc c (.spin s.nextTicket) with
      nextTicket := s.nextTicket + 1, taken := s.taken ++ [c] } released := by
  have hpc : ∀ d, (s.setPc c (.spin s.nextTicket)).pc d =
      if d = c then .spin s.nextTicket else s.pc d := fun d => Function.update_apply _ _ _ _
  have hnot : c ∉ s.taken.drop released := by
    intro hmem
    have hticket := (h.holds c).mpr hmem
    rw [hc] at hticket
    cases hticket
  have hsame : ∀ d, ((s.setPc c (.spin s.nextTicket)).pc d).hasLock = (s.pc d).hasLock := by
    intro d
    rw [hpc]
    split
    · rw [‹d = c›, hc]
      rfl
    · rfl
  have hdrop : (s.taken ++ [c]).drop released = s.taken.drop released ++ [c] :=
    List.drop_append_of_le_length h.le
  refine ⟨?_, h.serving, ?_, ?_, fun d => ?_, fun d k hd => ?_, fun d hd => ?_, fun hfree => ?_,
    fun d current hd => ?_, fun d => ?_⟩
  · change s.nextTicket + 1 = _
    rw [h.next, List.length_append, List.length_singleton, BitVec.ofNat_add]
    rfl
  · exact Nat.le_trans h.le (by simp)
  · change ((s.taken ++ [c]).drop released).Nodup
    rw [hdrop]
    exact h.nodup.append (List.nodup_singleton c) (by simpa using hnot)
  · change _ ↔ d ∈ (s.taken ++ [c]).drop released
    rw [hdrop, List.mem_append, List.mem_singleton, ← h.holds, hpc]
    split
    · simp [‹d = c›]
    · simp [‹¬d = c›]
  · change (s.setPc c (.spin s.nextTicket)).pc d = _ at hd
    rw [hpc] at hd
    split at hd
    · cases hd
      exact ⟨s.taken.length, by simp [‹d = c›], h.le, h.next⟩
    · obtain ⟨i, hi, hle, hk⟩ := h.ticket d k hd
      obtain ⟨hlt, -⟩ := List.getElem?_eq_some_iff.mp hi
      exact ⟨i, by rw [List.getElem?_append_left hlt, hi], hle, hk⟩
  · obtain ⟨howner, hentered⟩ := h.owner d (hsame d ▸ hd)
    obtain ⟨hlt, -⟩ := List.getElem?_eq_some_iff.mp howner
    refine ⟨by rw [List.getElem?_append_left hlt, howner], ?_⟩
    change s.entered = (s.taken ++ [c]).take (released + 1)
    rw [List.take_append_of_le_length hlt, hentered]
  · change s.entered = (s.taken ++ [c]).take released
    rw [List.take_append_of_le_length h.le, h.free fun d => hsame d ▸ hfree d]
  · change ((s.setPc c (.spin s.nextTicket)).pc d).loaded = _ at hd
    rw [hpc] at hd
    split at hd
    · cases hd
    · exact h.loaded d current hd
  · change (s.setPc c (.spin s.nextTicket)).pc d ≠ _
    rw [hpc]
    split
    · exact fun h => by cases h
    · exact h.granted d

/-- A processor that sees its own ticket served is the owner of it, and nobody has the lock. -/
theorem enter [Fintype C] (hcard : Fintype.card C < 2 ^ 64) (h : s.Inv released)
    (hc : s.pc c = .spin s.servingTicket) :
    Inv { s.setPc c .inside with entered := s.entered ++ [c] } released := by
  obtain ⟨i, hi, hle, hk⟩ := h.ticket c _ hc
  obtain ⟨hlt, -⟩ := List.getElem?_eq_some_iff.mp hi
  have hlength := h.length_le
  obtain rfl : i = released :=
    eq_of_ofNat_eq hle (by omega) (hk.symm.trans h.serving)
  have hfree : ∀ d, (s.pc d).hasLock = false := by
    intro d
    by_contra hd
    rw [Bool.not_eq_false] at hd
    obtain rfl : c = d := Option.some.inj (hi.symm.trans (h.owner d hd).1)
    rw [hc] at hd
    cases hd
  have hentered : s.entered ++ [c] = s.taken.take (i + 1) := by
    rw [h.free hfree, List.take_add_one, hi]
    rfl
  have hpc : ∀ d, (s.setPc c .inside).pc d = if d = c then .inside else s.pc d :=
    fun d => Function.update_apply _ _ _ _
  refine ⟨h.next, h.serving, h.le, h.nodup, fun d => ?_, fun d k hd => ?_, fun d hd => ?_,
    fun hnone => ?_, fun d current hd => ?_, fun d => ?_⟩
  · refine Iff.trans ?_ (h.holds d)
    change ((s.setPc c .inside).pc d).hasTicket = true ↔ _
    rw [hpc]
    split
    · rw [‹d = c›, hc]
      rfl
    · rfl
  · change (s.setPc c .inside).pc d = _ at hd
    rw [hpc] at hd
    split at hd
    · cases hd
    · exact h.ticket d k hd
  · refine ⟨?_, hentered⟩
    change ((s.setPc c .inside).pc d).hasLock = true at hd
    rw [hpc] at hd
    split at hd
    · rw [‹d = c›]
      exact hi
    · rw [hfree d] at hd
      cases hd
  · have hin : ((s.setPc c .inside).pc c).hasLock = false := hnone c
    rw [hpc, if_pos rfl] at hin
    cases hin
  · change ((s.setPc c .inside).pc d).loaded = _ at hd
    rw [hpc] at hd
    split at hd
    · cases hd
    · exact h.loaded d current hd
  · change (s.setPc c .inside).pc d ≠ _
    rw [hpc]
    split
    · exact fun h => by cases h
    · exact h.granted d

/-- The store of `unlock` serves the next ticket. -/
theorem release (h : s.Inv released) {current : BitVec 64} (hc : s.pc c = .storing current) :
    Inv { s.setPc c .idle with servingTicket := current + 1 } (released + 1) := by
  have hlock : (s.pc c).hasLock = true := by
    rw [hc]
    rfl
  obtain ⟨howner, hentered⟩ := h.owner c hlock
  obtain ⟨hlt, hget⟩ := List.getElem?_eq_some_iff.mp howner
  have hdrop : s.taken.drop released = c :: s.taken.drop (released + 1) := by
    rw [List.drop_eq_getElem_cons hlt, hget]
  have hnodup := h.nodup
  rw [hdrop, List.nodup_cons] at hnodup
  have hothers : ∀ d, d ≠ c → (s.pc d).hasLock = false := by
    intro d hd
    by_contra hin
    exact hd (h.unique (Bool.not_eq_false _ ▸ hin) hlock)
  have hpc : ∀ d, (s.setPc c .idle).pc d = if d = c then .idle else s.pc d :=
    fun d => Function.update_apply _ _ _ _
  have hnone : ∀ d, ((s.setPc c .idle).pc d).hasLock = false := by
    intro d
    rw [hpc]
    split
    · rfl
    · exact hothers d ‹_›
  refine ⟨h.next, ?_, hlt, hnodup.2, fun d => ?_, fun d k hd => ?_, fun d hd => ?_,
    fun _ => hentered, fun d current hd => ?_, fun d => ?_⟩
  · have hcurrent : current = s.servingTicket := h.loaded c current (by rw [hc]; rfl)
    change current + 1 = _
    rw [hcurrent, h.serving, BitVec.ofNat_add]
    rfl
  · change ((s.setPc c .idle).pc d).hasTicket = true ↔ d ∈ s.taken.drop (released + 1)
    rw [hpc]
    split
    · rw [‹d = c›]
      exact iff_of_false Bool.false_ne_true hnodup.1
    · rw [h.holds, hdrop, List.mem_cons]
      exact or_iff_right ‹_›
  · change (s.setPc c .idle).pc d = _ at hd
    rw [hpc] at hd
    split at hd
    · cases hd
    · obtain ⟨i, hi, hle, hk⟩ := h.ticket d k hd
      refine ⟨i, hi, ?_, hk⟩
      rcases hle.eq_or_lt with rfl | hlt
      · exact absurd (Option.some.inj (hi.symm.trans howner)) ‹_›
      · exact hlt
  · have hin : ((s.setPc c .idle).pc d).hasLock = true := hd
    rw [hnone d] at hin
    cases hin
  · have hloaded : ((s.setPc c .idle).pc d).loaded = some current := hd
    rw [hpc] at hloaded
    split at hloaded
    · cases hloaded
    · -- only the holder has loaded the ticket being served
      have hin := hothers d ‹_›
      cases hpcd : s.pc d <;> rw [hpcd] at hloaded hin <;> simp_all
  · change (s.setPc c .idle).pc d ≠ _
    rw [hpc]
    split
    · exact fun h => by cases h
    · exact h.granted d

theorem step [Fintype C] (hcard : Fintype.card C < 2 ^ 64) (h : s.Inv released) {e : TicketStep}
    (hs : s.step c e = some s') : ∃ released', s'.Inv released' := by
  cases e with
  | lock =>
      rw [TicketState.step] at hs
      split at hs
      · rename_i hc
        cases hs
        refine ⟨released, h.setPc ?_ ?_ ?_ ?_ ?_⟩ <;> simp [hc]
      · cases hs
  | tryLock =>
      rw [TicketState.step] at hs
      split at hs
      · rename_i hc
        cases hs
        refine ⟨released, h.setPc ?_ ?_ ?_ ?_ ?_⟩ <;> simp [hc]
      · cases hs
  | unlock =>
      rw [TicketState.step] at hs
      split at hs
      · rename_i hc
        cases hs
        refine ⟨released, h.setPc ?_ ?_ ?_ ?_ ?_⟩ <;> simp [hc]
      · cases hs
  | run =>
      rw [TicketState.step, TicketState.run] at hs
      cases hc : s.pc c with
      | idle | inside | refused => simp [hc] at hs
      | tried current =>
          simp only [hc, Option.some.injEq] at hs
          subst hs
          refine ⟨released, h.setPc ?_ ?_ ?_ ?_ ?_⟩ <;> split <;> simp [hc]
      | locking =>
          simp only [hc, Option.some.injEq] at hs
          subst hs
          exact ⟨released, h.take hc⟩
      | spin ticket =>
          simp only [hc] at hs
          split at hs
          · cases hs
            exact ⟨released, h⟩
          · rename_i hserved
            rw [ne_eq, not_not] at hserved
            cases hs
            exact ⟨released, h.enter hcard (hserved ▸ hc)⟩
      | checking current =>
          simp only [hc, Option.some.injEq] at hs
          subst hs
          have hcurrent : current = s.servingTicket := h.loaded c current (by rw [hc]; rfl)
          have hne : current ≠ s.nextTicket := hcurrent ▸ h.next_ne hcard (by rw [hc]; rfl)
          rw [if_pos hne]
          refine ⟨released, h.setPc ?_ ?_ ?_ ?_ ?_⟩ <;> simp [hc]
      | releasing =>
          simp only [hc, Option.some.injEq] at hs
          subst hs
          refine ⟨released, h.setPc ?_ ?_ ?_ ?_ ?_⟩ <;> simp [hc]
      | storing current =>
          simp only [hc, Option.some.injEq] at hs
          subst hs
          exact ⟨released + 1, h.release hc⟩

end Inv

end TicketState

/-- With fewer than `2 ^ 64` processors: at most one has the lock, they get it in the order of their
tickets, and the holder's `unlock` does not return false. -/
theorem ticket_lock_safe {C : Type*} [Fintype C] [DecidableEq C] (hcard : Fintype.card C < 2 ^ 64)
    {s : TicketState C} (h : (ticketSystem C).Reachable s) :
    (∀ c d, (s.pc c).hasLock = true → (s.pc d).hasLock = true → c = d) ∧
      s.entered <+: s.taken ∧ ∀ c, s.pc c ≠ .refused := by
  have hinv : ∃ released, s.Inv released := by
    refine h.invariant (I := fun s => ∃ released, s.Inv released) (fun s hs => ⟨0, ?_⟩)
      fun s e s' _ hI hs => ?_
    · rw [show s = .new from hs]
      exact TicketState.inv_new
    · obtain ⟨released, hI⟩ := hI
      exact hI.step hcard hs
  obtain ⟨released, hinv⟩ := hinv
  exact ⟨fun c d hc hd => hinv.unique hc hd, hinv.entered_prefix, hinv.granted⟩

/-- A processor waits for the lock another one has, and gets it from it. -/
theorem ticket_lock_safe_two : ∃ s : TicketState Bool, (ticketSystem Bool).Reachable s ∧
    s.entered = [true, false] ∧ (s.pc false).hasLock = true ∧ s.entered <+: s.taken ∧
      s.pc true ≠ .refused := by
  have h : (ticketSystem Bool).Reachable _ := .ofStep
    [(true, .tryLock), (false, .lock), (true, .run), (true, .run), (false, .run), (true, .run),
      (false, .run), (true, .unlock), (true, .run), (true, .run), (true, .run), (false, .run)] rfl
  obtain ⟨-, hprefix, hgranted⟩ := ticket_lock_safe (by decide) h
  exact ⟨_, h, rfl, rfl, hprefix, hgranted true⟩

end Ilobilix.Lib
