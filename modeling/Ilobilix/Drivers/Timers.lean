import Ilobilix.Foundation.Transition
import Ilobilix.Lib.Math

/-!
# Extended counters: the HPET and the ACPI PM timer

The hardware counters are 32 or 24 bits wide, and `last` is a 64-bit value that the drivers keep beside
them. A call reads the hardware, then loads `last`, and takes the next value from `last` on with the low
bits that it read. It stores that in `last` if no other call has stored in between.

Readers on several processors take these steps in any order, over a counter that never wraps. The state
also has what no driver sees: for each call the counter at its hardware read, and for `last` the counter
at the hardware read that it comes from.

A call that loads `last` after another call has stored a later reading takes its own reading for one of
the next period. It then returns, and stores, a whole period too much (`extend_of_lt`). If no call does
so, every call returns the counter at its hardware read: `reads_counter`.
-/

namespace Ilobilix.Timers

inductive Timer
  | hpet
  /-- With the flag of the FADT for a counter of 32 bits. -/
  | acpipm (extended : Bool)
deriving DecidableEq, Repr

def Timer.width : Timer → ℕ
  | hpet => 32
  | acpipm extended => if extended then 32 else 24

def mask (width : ℕ) : ℕ := 2 ^ width - 1

/-- The value of a call, from what it read and the `last` it loaded. -/
def extend (width value last : ℕ) : ℕ :=
  let value := (value &&& mask width) ||| (last &&& (2 ^ 64 - 1 - mask width))
  if value < last then (value + (mask width + 1)) % 2 ^ 64 else value

/-- The condition for the exchange: `last_val - value > (mask >> 1)`. -/
def exchanges (width value last : ℕ) : Bool :=
  decide ((last + 2 ^ 64 - value) % 2 ^ 64 > mask width >>> 1)

/-- The loop condition of `read` of the PM timer. -/
def inconsistent (v1 v2 v3 : ℕ) : Bool :=
  (v1 > v2 && v1 < v3) || (v2 > v3 && v2 < v1) || (v3 > v1 && v3 < v2)

/-- Where a reader is. `start` is the counter at the start of the call, and `time` the counter at the
hardware read that the call goes on with. -/
inductive Place
  | idle
  /-- In `read` of the PM timer. -/
  | again (start : ℕ)
  | first (start v1 : ℕ)
  | second (start v1 v2 time : ℕ)
  | read (start value time : ℕ)
  /-- `last` is loaded. -/
  | loaded (start value last time : ℕ)
  | returned (value time : ℕ)
deriving DecidableEq, Repr

/-- The counter, `last`, and the readers. -/
structure State (ρ : Type*) where
  counter : ℕ
  last : ℕ
  /-- The counter at the hardware read that `last` comes from. -/
  lastTime : ℕ
  /-- `last` is to be refreshed before the counter is there. -/
  deadline : ℕ
  place : ρ → Place

inductive Op (ρ : Type*)
  | tick (ticks : ℕ)
  /-- A hardware read. The counter is in the low bits. -/
  | read (reader : ρ) (high : ℕ)
  | load (reader : ρ)
  /-- The exchange, if there is to be one, and the return. -/
  | exchange (reader : ρ)

namespace State

variable {ρ : Type*} [DecidableEq ρ]

def setPlace (s : State ρ) (reader : ρ) (place : Place) : State ρ :=
  { s with place := Function.update s.place reader place }

def half (timer : Timer) : ℕ := 2 ^ (timer.width - 1)

/-- What the hardware returns. -/
def sample (timer : Timer) (high : ℕ) (s : State ρ) : ℕ :=
  (high * 2 ^ timer.width + s.counter % 2 ^ timer.width) % 2 ^ 64

/-- The place after a hardware read. -/
def sampled (timer : Timer) (value counter : ℕ) : Place → Option Place
  | .idle | .returned _ _ =>
      match timer with
      | .hpet => some (.read counter value counter)
      | .acpipm _ => some (.first counter (value % 2 ^ 32))
  | .again start => some (.first start (value % 2 ^ 32))
  | .first start v1 => some (.second start v1 (value % 2 ^ 32) counter)
  | .second start v1 v2 time =>
      some (if inconsistent v1 v2 (value % 2 ^ 32) then .again start else .read start v2 time)
  | .read _ _ _ | .loaded _ _ _ _ => none

def step (timer : Timer) (s : State ρ) : Op ρ → Option (State ρ)
  | .tick ticks => some { s with counter := s.counter + ticks }
  | .read reader high =>
      (sampled timer (s.sample timer high) s.counter (s.place reader)).map (s.setPlace reader)
  | .load reader =>
      match s.place reader with
      | .read start value time =>
          let value := extend timer.width value s.last
          -- a call that finds its own value in `last` has nothing to store
          some { s.setPlace reader (.loaded start value s.last time) with
            deadline := if value = s.last then s.counter + half timer else s.deadline }
      | _ => none
  | .exchange reader =>
      match s.place reader with
      | .loaded _ value last time =>
          if exchanges timer.width value last ∧ s.last = last then
            some { s.setPlace reader (.returned value time) with
              last := value
              lastTime := time
              deadline := s.counter + half timer }
          else some (s.setPlace reader (.returned value time))
      | _ => none

/-- The counter starts in its first period, and the end of that is the deadline for the first store. -/
def system (timer : Timer) : TransitionSystem (State ρ) (Op ρ) where
  init s := s.counter < 2 ^ timer.width ∧ s.last = 0 ∧ s.lastTime = 0 ∧ s.deadline = 2 ^ timer.width ∧
    ∀ reader, s.place reader = .idle
  step s op s' := s.step timer op = some s'

/-- A call takes less than half a period, and loads `last` before its deadline. -/
def Timely (timer : Timer) (s : State ρ) : Op ρ → Prop
  | .tick _ => True
  | .read reader _ =>
      match s.place reader with
      | .again start | .first start _ | .second start _ _ _ => s.counter < start + half timer
      | _ => True
  | .load reader =>
      match s.place reader with
      | .read start _ _ => s.counter < start + half timer ∧ s.counter < s.deadline
      | _ => True
  | .exchange reader =>
      match s.place reader with
      | .loaded start _ _ _ => s.counter < start + half timer
      | _ => True

/-- A call does not load a `last` from a later hardware read than its own. -/
def InOrder (s : State ρ) : Op ρ → Prop
  | .load reader =>
      match s.place reader with
      | .read _ _ time => s.lastTime ≤ time
      | _ => True
  | _ => True

end State

/-! ## The value of a call -/

section Extend

variable {width value last time lastTime : ℕ}

/-- The bits of `last` above the hardware counter, with the bits that were read. -/
theorem combine_eq (hwidth : width < 64) (hlast : last < 2 ^ 64) :
    (value &&& mask width) ||| (last &&& (2 ^ 64 - 1 - mask width)) =
      last / 2 ^ width * 2 ^ width + value % 2 ^ width := by
  have hlt : 2 ^ width < 2 ^ 64 := Nat.pow_lt_pow_right (by omega) hwidth
  have hpos : 0 < 2 ^ width := Nat.two_pow_pos width
  have hhigh : last &&& (2 ^ 64 - 1 - mask width) = last / 2 ^ width * 2 ^ width := by
    rw [← Lib.alignDown_two_pow hlast hwidth, Lib.alignDown, Nat.mod_eq_of_lt hlast, mask,
      show 2 ^ width + (2 ^ 64 - 1) = (2 ^ width - 1) + 2 ^ 64 by omega, Nat.add_mod_right,
      Nat.mod_eq_of_lt (by omega)]
  rw [hhigh, mask, Nat.and_two_pow_sub_one_eq_mod, Nat.or_comm, Nat.mul_comm,
    ← Nat.two_pow_add_eq_or_of_lt (Nat.mod_lt _ hpos)]

/-- A reading less than a period after the one that `last` comes from is extended to the counter. -/
theorem extend_of_le (hwidth : width < 64) (hlast : last = lastTime % 2 ^ 64)
    (hvalue : value % 2 ^ width = time % 2 ^ width) (hle : lastTime ≤ time)
    (hlt : time < lastTime + 2 ^ width) : extend width value last = time % 2 ^ 64 := by
  have hpos : 0 < 2 ^ width := Nat.two_pow_pos width
  have hdvd : 2 ^ width ∣ 2 ^ 64 := Nat.pow_dvd_pow 2 (by omega)
  have hlast64 : last < 2 ^ 64 := hlast ▸ Nat.mod_lt _ (by norm_num)
  -- both readings without the part above 64 bits
  obtain ⟨base, hbase, rest, hrest⟩ : ∃ base, lastTime = 2 ^ 64 * base + last ∧
      ∃ rest, time = 2 ^ 64 * base + rest := by
    refine ⟨lastTime / 2 ^ 64, ?_, time - 2 ^ 64 * (lastTime / 2 ^ 64), ?_⟩
    · rw [hlast, Nat.div_add_mod]
    · have := Nat.div_add_mod lastTime (2 ^ 64)
      omega
  have hlow : value % 2 ^ width = rest % 2 ^ width := by
    obtain ⟨k, hk⟩ := hdvd
    rw [hvalue, hrest, hk, Nat.mul_assoc, Nat.mul_add_mod]
  have htime : time % 2 ^ 64 = rest % 2 ^ 64 := by rw [hrest, Nat.mul_add_mod]
  have hmask : mask width + 1 = 2 ^ width := by
    rw [mask]
    omega
  rw [extend, combine_eq hwidth hlast64, hlow, htime, hmask]
  have hlastmod := Nat.div_add_mod last (2 ^ width)
  have hrestmod := Nat.div_add_mod rest (2 ^ width)
  have hrestlt := Nat.mod_lt rest hpos
  rw [Nat.mul_comm] at hlastmod hrestmod
  have hsame : last / 2 ^ width ≤ rest / 2 ^ width := Nat.div_le_div_right (by omega)
  have hnext : rest / 2 ^ width ≤ last / 2 ^ width + 1 := by
    rw [← Nat.add_div_right last hpos]
    exact Nat.div_le_div_right (by omega)
  rcases Nat.eq_or_lt_of_le hsame with heq | hgt
  · -- in the same period
    rw [heq, hrestmod, if_neg (by omega), Nat.mod_eq_of_lt]
    have hquot : rest / 2 ^ width < 2 ^ 64 / 2 ^ width := by
      rw [← heq]
      exact Nat.div_lt_div_of_lt_of_dvd hdvd hlast64
    exact Nat.lt_of_div_lt_div hquot
  · -- in the next one
    have heq : rest / 2 ^ width = last / 2 ^ width + 1 := by omega
    rw [heq, Nat.add_mul, Nat.one_mul] at hrestmod
    rw [if_pos (by omega), show last / 2 ^ width * 2 ^ width + rest % 2 ^ width + 2 ^ width = rest by
      omega]

/-- A reading from before the one that `last` comes from is taken for one of the next period. -/
theorem extend_of_lt (hwidth : width < 64) (hlast : last = lastTime % 2 ^ 64)
    (hvalue : value % 2 ^ width = time % 2 ^ width) (hlt : time < lastTime)
    (hle : lastTime ≤ time + 2 ^ width) :
    extend width value last = (time + 2 ^ width) % 2 ^ 64 := by
  refine extend_of_le hwidth hlast ?_ hle (by omega)
  rw [hvalue, Nat.add_mod_right]

end Extend

/-! ## Runs -/

theorem Timer.width_cases (timer : Timer) : timer.width = 32 ∨ timer.width = 24 := by
  cases timer with
  | hpet => exact Or.inl rfl
  | acpipm extended =>
      cases extended with
      | false => exact Or.inr rfl
      | true => exact Or.inl rfl

theorem Timer.half_add_half (timer : Timer) :
    State.half timer + State.half timer = 2 ^ timer.width := by
  rcases timer.width_cases with h | h <;> rw [State.half, h] <;> norm_num

/-- What a reader knows. The values have the low bits of the counter at the hardware read, and from the
load on they are the counter. -/
def Place.Good (timer : Timer) (counter : ℕ) : Place → Prop
  | .idle => True
  | .again start | .first start _ => start ≤ counter
  | .second start _ value time | .read start value time =>
      value % 2 ^ timer.width = time % 2 ^ timer.width ∧ start ≤ time ∧ time ≤ counter
  | .loaded start value _ time => value = time % 2 ^ 64 ∧ start ≤ time ∧ time ≤ counter
  | .returned value time => value = time % 2 ^ 64

theorem Place.Good.mono {timer : Timer} {c c' : ℕ} {place : Place} (h : place.Good timer c)
    (hle : c ≤ c') : place.Good timer c' := by
  cases place with
  | idle => trivial
  | again start => exact Nat.le_trans h hle
  | first start v1 => exact Nat.le_trans h hle
  | second start v1 v2 time => exact ⟨h.1, h.2.1, Nat.le_trans h.2.2 hle⟩
  | read start value time => exact ⟨h.1, h.2.1, Nat.le_trans h.2.2 hle⟩
  | loaded start value last time => exact ⟨h.1, h.2.1, Nat.le_trans h.2.2 hle⟩
  | returned value time => exact h

namespace State

variable {ρ : Type*} [DecidableEq ρ] {timer : Timer} {s s' : State ρ}

structure Inv (timer : Timer) (s : State ρ) : Prop where
  last : s.last = s.lastTime % 2 ^ 64
  lastTime : s.lastTime ≤ s.counter
  deadline : s.deadline ≤ s.lastTime + 2 ^ timer.width
  places : ∀ reader, (s.place reader).Good timer s.counter

omit [DecidableEq ρ] in
/-- The low bits of a sample, also cut to 32 bits. -/
theorem sample_low (timer : Timer) (high : ℕ) (s : State ρ) :
    s.sample timer high % 2 ^ timer.width = s.counter % 2 ^ timer.width ∧
      s.sample timer high % 2 ^ 32 % 2 ^ timer.width = s.counter % 2 ^ timer.width := by
  have hle : timer.width ≤ 32 := by
    rcases timer.width_cases with h | h <;> omega
  have hlow : s.sample timer high % 2 ^ timer.width = s.counter % 2 ^ timer.width := by
    rw [sample, Nat.mod_mod_of_dvd _ (Nat.pow_dvd_pow 2 (by omega)), Nat.mul_comm, Nat.mul_add_mod,
      Nat.mod_mod]
  exact ⟨hlow, by rw [Nat.mod_mod_of_dvd _ (Nat.pow_dvd_pow 2 hle), hlow]⟩

/-- The places of the readers that do not move. -/
theorem Inv.setPlace (h : s.Inv timer) (reader : ρ) (place : Place)
    (hplace : place.Good timer s.counter) : (s.setPlace reader place).Inv timer := by
  refine ⟨h.last, h.lastTime, h.deadline, fun r => ?_⟩
  rw [State.setPlace]
  dsimp only
  by_cases hr : r = reader
  · rwa [hr, Function.update_self]
  · rw [Function.update_of_ne hr]
    exact h.places r

/-- A hardware read. -/
theorem Inv.read (h : s.Inv timer) {reader : ρ} {high : ℕ}
    (hstep : s.step timer (.read reader high) = some s') : s'.Inv timer := by
  rw [step] at hstep
  obtain ⟨place, hplace, rfl⟩ := Option.map_eq_some_iff.mp hstep
  obtain ⟨hlow, hlow32⟩ := s.sample_low timer high
  have hgood := h.places reader
  refine h.setPlace reader place ?_
  generalize s.place reader = old at hplace hgood
  -- a call starts with a first read, of which the HPET driver needs no more
  have hstart : ∀ {place}, (match timer with
      | .hpet => some (Place.read s.counter (s.sample timer high) s.counter)
      | .acpipm _ => some (Place.first s.counter (s.sample timer high % 2 ^ 32))) = some place →
      place.Good timer s.counter := by
    intro place heq
    split at heq
    · cases heq
      exact ⟨hlow, Nat.le_refl _, Nat.le_refl _⟩
    · cases heq
      exact Nat.le_refl s.counter
  cases old with
  | idle => exact hstart hplace
  | returned value time => exact hstart hplace
  | again start =>
      cases hplace
      exact hgood
  | first start v1 =>
      cases hplace
      exact ⟨hlow32, hgood, Nat.le_refl _⟩
  | second start v1 v2 time =>
      cases hplace
      split
      · exact Nat.le_trans hgood.2.1 hgood.2.2
      · exact hgood
  | read start value time => cases hplace
  | loaded start value last time => cases hplace

theorem half_le (timer : Timer) : half timer ≤ 2 ^ timer.width := by
  rw [← timer.half_add_half]
  omega

theorem width_lt (timer : Timer) : timer.width < 64 := by
  rcases timer.width_cases with h | h <;> omega

omit [DecidableEq ρ] in
/-- A load in time and in order finds the counter at the hardware read. -/
theorem Inv.extend_eq (h : s.Inv timer) {reader : ρ} {start value time : ℕ}
    (hplace : s.place reader = .read start value time) (hdeadline : s.counter < s.deadline)
    (horder : s.lastTime ≤ time) : extend timer.width value s.last = time % 2 ^ 64 := by
  have hgood := h.places reader
  rw [hplace] at hgood
  have hlt := h.deadline
  have hle := hgood.2.2
  exact extend_of_le (width_lt timer) h.last hgood.1 horder (by omega)

theorem Inv.load (h : s.Inv timer) {reader : ρ} (htimely : s.Timely timer (.load reader))
    (horder : s.InOrder (.load reader)) (hstep : s.step timer (.load reader) = some s') :
    s'.Inv timer := by
  rw [step] at hstep
  split at hstep
  · rename_i start value time hplace
    cases hstep
    rw [Timely, hplace] at htimely
    rw [InOrder, hplace] at horder
    obtain ⟨hspan, hdeadline⟩ := htimely
    have heq := h.extend_eq hplace hdeadline horder
    have hgood := h.places reader
    rw [hplace] at hgood
    have hnext := h.setPlace reader (.loaded start (extend timer.width value s.last) s.last time)
      ⟨heq, hgood.2⟩
    refine ⟨hnext.last, hnext.lastTime, ?_, hnext.places⟩
    dsimp only
    split
    · -- the call has read the value of `last` itself
      rename_i hsame
      have hlt := h.deadline
      have hle := timer.half_add_half
      have htime : time = s.lastTime := by
        have hpow : 2 ^ timer.width ≤ 2 ^ 64 := Nat.pow_le_pow_right (by norm_num) (width_lt timer).le
        rw [heq, h.last] at hsame
        have hgood' := hgood.2.2
        change s.lastTime ≤ time at horder
        omega
      have hstart := hgood.2.1
      change s.counter + half timer ≤ s.lastTime + 2 ^ timer.width
      omega
    · exact h.deadline
  · cases hstep

theorem Inv.exchange (h : s.Inv timer) {reader : ρ} (htimely : s.Timely timer (.exchange reader))
    (hstep : s.step timer (.exchange reader) = some s') : s'.Inv timer := by
  rw [step] at hstep
  split at hstep
  · rename_i start value last time hplace
    rw [Timely, hplace] at htimely
    have hgood := h.places reader
    rw [hplace] at hgood
    have hnext := h.setPlace reader (.returned value time) hgood.1
    split at hstep
    · cases hstep
      refine ⟨hgood.1, hgood.2.2, ?_, hnext.places⟩
      have hle := timer.half_add_half
      have hstart := hgood.2.1
      change s.counter < start + half timer at htimely
      change s.counter + half timer ≤ time + 2 ^ timer.width
      omega
    · cases hstep
      exact hnext
  · cases hstep

theorem Inv.step (h : s.Inv timer) {op : Op ρ} (htimely : s.Timely timer op) (horder : s.InOrder op)
    (hstep : s.step timer op = some s') : s'.Inv timer := by
  cases op with
  | tick ticks =>
      cases hstep
      have hle := h.lastTime
      refine ⟨h.last, ?_, h.deadline, fun reader => (h.places reader).mono (Nat.le_add_right ..)⟩
      change s.lastTime ≤ s.counter + ticks
      omega
  | read reader high => exact h.read hstep
  | load reader => exact h.load htimely horder hstep
  | exchange reader => exact h.exchange htimely hstep

/-- The runs whose calls are in time, and load no `last` from a later hardware read than their own. -/
def ordered (timer : Timer) : TransitionSystem (State ρ) (Op ρ) :=
  (system timer).restrict fun s op => s.Timely timer op ∧ s.InOrder op

theorem inv_of_reachable (h : (ordered timer).Reachable s) : s.Inv timer := by
  refine h.invariant ?_ fun s op s' _ hs hstep => hs.step hstep.1.1 hstep.1.2 hstep.2
  rintro s ⟨-, hlast, htime, hdeadline, hplace⟩
  refine ⟨?_, ?_, ?_, fun reader => ?_⟩
  · rw [hlast, htime, Nat.zero_mod]
  · rw [htime]
    exact Nat.zero_le _
  · rw [hdeadline, htime]
    omega
  · rw [hplace reader]
    trivial

/-- The runs whose calls are in time. -/
def timely (timer : Timer) : TransitionSystem (State ρ) (Op ρ) :=
  (system timer).restrict fun s op => s.Timely timer op

end State

/-- In a run whose calls are in time and in order, every call returns the counter at its hardware read.
After such a run, the next load that is in time gives the right value exactly if it is in order too. -/
theorem reads_counter {ρ : Type*} [DecidableEq ρ] (timer : Timer) {s : State ρ}
    (h : (State.ordered timer).Reachable s) :
    (∀ reader value time, s.place reader = .returned value time → value = time % 2 ^ 64) ∧
    ∀ reader start value time, s.place reader = .read start value time →
      s.Timely timer (.load reader) →
      (extend timer.width value s.last = time % 2 ^ 64 ↔ s.InOrder (.load reader)) := by
  have hinv := State.inv_of_reachable h
  refine ⟨fun reader value time hplace => ?_, fun reader start value time hplace htimely => ?_⟩
  · have hgood := hinv.places reader
    rwa [hplace] at hgood
  · rw [State.Timely, hplace] at htimely
    rw [State.InOrder, hplace]
    refine ⟨fun heq => ?_, fun horder => hinv.extend_eq hplace htimely.2 horder⟩
    have hgood := hinv.places reader
    rw [hplace] at hgood
    have hlast := hinv.lastTime
    have hhalf := State.half_le timer
    have hstart := hgood.2.1
    have hspan := htimely.1
    by_contra hlate
    rw [extend_of_lt (State.width_lt timer) hinv.last hgood.1 (Nat.lt_of_not_le hlate) (by omega)] at heq
    -- a whole period is not a multiple of the 64 bits
    have hpos : 0 < 2 ^ timer.width := Nat.two_pow_pos _
    have hlt : 2 ^ timer.width < 2 ^ 64 := Nat.pow_lt_pow_right (by omega) (State.width_lt timer)
    omega

/-- Two readers of the HPET, on a counter that starts at five. -/
def exampleStart : State Bool := ⟨5, 0, 0, 2 ^ 32, fun _ => .idle⟩

/-- The first reader has read. -/
def exampleRead : State Bool := exampleStart.setPlace false (.read 5 5 5)

private theorem exampleStart_init : (State.system .hpet).init exampleStart :=
  ⟨by decide, rfl, rfl, rfl, fun _ => rfl⟩

/-- The first reader loads `last` before anything is stored there. -/
theorem reads_counter_first :
    extend 32 5 exampleRead.last = 5 % 2 ^ 64 ↔ exampleRead.InOrder (.load false) :=
  (reads_counter .hpet (s := exampleRead)
    (.step (l := .read false 0) (.init exampleStart_init) ⟨⟨trivial, trivial⟩, rfl⟩)).2
    false 5 5 5 rfl ⟨by decide, by decide⟩

/-- Two ticks later the second reader has read seven and stored it. -/
def exampleStored : State Bool :=
  { ((exampleRead.setPlace true (.read 7 7 7)).setPlace true (.loaded 7 7 0 7)).setPlace true
      (.returned 7 7) with
    counter := 7, last := 7, lastTime := 7, deadline := 7 + 2 ^ 31 }

private theorem exampleStored_reachable : (State.timely .hpet).Reachable exampleStored := by
  have hread : (State.timely .hpet).Reachable exampleRead :=
    .step (l := .read false 0) (.init exampleStart_init) ⟨trivial, rfl⟩
  have htick : (State.timely .hpet).Reachable { exampleRead with counter := 7 } :=
    .step (l := .tick 2) hread ⟨trivial, rfl⟩
  have hsecond : (State.timely .hpet).Reachable
      ({ exampleRead with counter := 7 }.setPlace true (.read 7 7 7)) :=
    .step (l := .read true 0) htick ⟨trivial, rfl⟩
  have hload : (State.timely .hpet).Reachable
      (({ exampleRead with counter := 7 }.setPlace true (.read 7 7 7)).setPlace true
        (.loaded 7 7 0 7)) :=
    .step (l := .load true) hsecond ⟨⟨by decide, by decide⟩, rfl⟩
  refine .step (l := .exchange true) hload ⟨?_, rfl⟩
  change 7 < 7 + State.half .hpet
  decide

/-- The first reader now loads `last`, and returns a period too much. It also stores it. -/
theorem reads_late :
    ¬ ∀ (timer : Timer) (s : State Bool) (reader : Bool) (value time : ℕ),
      (State.timely timer).Reachable s → s.place reader = .returned value time →
      value = time % 2 ^ 64 := by
  intro h
  have hload : (State.timely .hpet).Reachable
      (exampleStored.setPlace false (.loaded 5 (2 ^ 32 + 5) 7 5)) :=
    .step (l := .load false) exampleStored_reachable ⟨⟨by decide, by decide⟩, rfl⟩
  have hreturn : (State.timely .hpet).Reachable
      { (exampleStored.setPlace false (.loaded 5 (2 ^ 32 + 5) 7 5)).setPlace false
          (.returned (2 ^ 32 + 5) 5) with
        last := 2 ^ 32 + 5, lastTime := 5, deadline := 7 + 2 ^ 31 } := by
    refine .step (l := .exchange false) hload ⟨?_, rfl⟩
    change 7 < 5 + State.half .hpet
    decide
  exact absurd (h .hpet _ false _ 5 hreturn rfl) (by decide)

end Ilobilix.Timers
