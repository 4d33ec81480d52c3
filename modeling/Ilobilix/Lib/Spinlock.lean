import Mathlib.Data.Nat.Notation
import Mathlib.Logic.Function.Basic

/-!
# The ticket spinlock

`Spinlock` is `spinlock_base<lock_type::none>`: a thread takes the next ticket and spins until its
ticket is served. The counters are natural numbers; `std::size_t` differs from them only when `2 ^ 64`
threads hold tickets at once.

`Tickets` ties the counters to the tickets the members of a system hold. It is what taking a ticket
and serving the next one preserve, and it gives mutual exclusion: a thread may enter only with the
ticket being served, and no two threads have the same ticket.
-/

namespace Ilobilix.Lib

structure Spinlock where
  nextTicket : ℕ
  servingTicket : ℕ

namespace Spinlock

/-- A spinlock nobody has used. -/
def new : Spinlock := ⟨0, 0⟩

def isLocked (l : Spinlock) : Bool := l.servingTicket != l.nextTicket

/-- The `fetch_add` at the start of `spinlock::lock`. The ticket is the old counter. -/
def take (l : Spinlock) : Spinlock := { l with nextTicket := l.nextTicket + 1 }

/-- `spinlock::unlock`: an unlocked lock is left alone. -/
def unlock (l : Spinlock) : Spinlock × Bool :=
  if l.isLocked then ({ l with servingTicket := l.servingTicket + 1 }, true) else (l, false)

variable {T : Type*}

/-- The tickets held are the ones not served yet, and each is held once. -/
structure Tickets (l : Spinlock) (ticket : T → Option ℕ) : Prop where
  le : l.servingTicket ≤ l.nextTicket
  range : ∀ t k, ticket t = some k → l.servingTicket ≤ k ∧ k < l.nextTicket
  inj : ∀ t u k, ticket t = some k → ticket u = some k → t = u

variable {l : Spinlock} {ticket ticket' : T → Option ℕ} {t : T}

theorem Tickets.new : Tickets Spinlock.new fun _ : T => none where
  le := Nat.le_refl _
  range := by simp
  inj := by simp

/-- A step that moves no ticket. -/
theorem Tickets.congr (h : l.Tickets ticket) (he : ∀ u, ticket' u = ticket u) :
    l.Tickets ticket' := by
  have : ticket' = ticket := funext he
  rwa [this]

theorem Tickets.take (h : l.Tickets ticket) (hnew : ticket' t = some l.nextTicket)
    (he : ∀ u, u ≠ t → ticket' u = ticket u) : l.take.Tickets ticket' where
  le := Nat.le_succ_of_le h.le
  range u k hu := by
    simp only [Spinlock.take]
    by_cases hut : u = t
    · subst hut
      rw [hnew, Option.some.injEq] at hu
      have := h.le
      omega
    · rw [he u hut] at hu
      have := h.range u k hu
      omega
  inj u v k hu hv := by
    by_cases hut : u = t <;> by_cases hvt : v = t
    · rw [hut, hvt]
    · rw [hut, hnew, Option.some.injEq] at hu
      rw [he v hvt] at hv
      have := h.range v k hv
      omega
    · rw [hvt, hnew, Option.some.injEq] at hv
      rw [he u hut] at hu
      have := h.range u k hu
      omega
    · rw [he u hut] at hu
      rw [he v hvt] at hv
      exact h.inj u v k hu hv

/-- The holder of the ticket being served finds the lock locked. -/
theorem Tickets.isLocked (h : l.Tickets ticket) (ht : ticket t = some l.servingTicket) :
    l.isLocked = true := by
  have := h.range t _ ht
  simp only [Spinlock.isLocked, bne_iff_ne, ne_eq]
  omega

theorem Tickets.unlock (h : l.Tickets ticket) (ht : ticket t = some l.servingTicket)
    (hnew : ticket' t = none) (he : ∀ u, u ≠ t → ticket' u = ticket u) :
    l.unlock.1.Tickets ticket' := by
  have hrange := h.range t _ ht
  rw [Spinlock.unlock, if_pos (h.isLocked ht)]
  refine ⟨hrange.2, fun u k hu => ?_, fun u v k hu hv => ?_⟩
  · by_cases hut : u = t
    · rw [hut, hnew] at hu
      cases hu
    · rw [he u hut] at hu
      have hk := h.range u k hu
      have hne : k ≠ l.servingTicket := fun hk => hut (h.inj u t k hu (hk ▸ ht))
      simp only
      omega
  · by_cases hut : u = t
    · rw [hut, hnew] at hu
      cases hu
    · by_cases hvt : v = t
      · rw [hvt, hnew] at hv
        cases hv
      · rw [he u hut] at hu
        rw [he v hvt] at hv
        exact h.inj u v k hu hv

end Spinlock

end Ilobilix.Lib
