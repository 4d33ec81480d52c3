import Ilobilix.Foundation.Transition
import Mathlib.Data.BitVec
import Mathlib.Data.Int.Notation
import Mathlib.Data.List.Nodup
import Mathlib.Logic.Function.Basic

/-!
# The KVM clock

The hypervisor keeps the parameters of the clock in a page that it shares with the kernel. It makes the
version odd, rewrites the fields one by one, and makes the version even again. `time_ns` waits for an
even version, reads the counter, and then one field after the other.

The fields can be rewritten at any moment between these reads, and the version is not read a second time.
A call mixes the fields of two versions if a field is rewritten that it has still to read. Otherwise it
uses the fields of a single one: `returned_of_settled`.
-/

namespace Ilobilix.Timers.Kvm

/-- The fields of the page that the clock is computed from. -/
structure KvmclockInfo where
  tscTimestamp : BitVec 64
  systemTime : BitVec 64
  tscToSystemMul : BitVec 32
  tscShift : BitVec 8
deriving DecidableEq, Repr

inductive Field
  | tscTimestamp
  | systemTime
  | tscToSystemMul
  | tscShift
deriving DecidableEq, Repr

namespace Field

def all : List Field := [tscTimestamp, systemTime, tscToSystemMul, tscShift]

/-- The field has the same value in both. -/
def Same : Field → KvmclockInfo → KvmclockInfo → Prop
  | tscTimestamp, a, b => a.tscTimestamp = b.tscTimestamp
  | systemTime, a, b => a.systemTime = b.systemTime
  | tscToSystemMul, a, b => a.tscToSystemMul = b.tscToSystemMul
  | tscShift, a, b => a.tscShift = b.tscShift

/-- The page with one field rewritten. -/
def write (next : KvmclockInfo) : Field → KvmclockInfo → KvmclockInfo
  | tscTimestamp, page => { page with tscTimestamp := next.tscTimestamp }
  | systemTime, page => { page with systemTime := next.systemTime }
  | tscToSystemMul, page => { page with tscToSystemMul := next.tscToSystemMul }
  | tscShift, page => { page with tscShift := next.tscShift }

variable {f g : Field} {a b c next page : KvmclockInfo}

@[simp] theorem Same.refl : f.Same a a := by
  cases f <;> rfl

theorem write_same : f.Same (f.write next page) next := by
  cases f <;> rfl

theorem write_same_of_ne (h : f ≠ g) : f.Same (g.write next page) a ↔ f.Same page a := by
  cases g <;> cases f <;> first | exact absurd rfl h | rfl

theorem eq_of_same (h : ∀ f : Field, f.Same a b) : a = b := by
  cases a with
  | mk t s m sh =>
      cases b with
      | mk t' s' m' sh' =>
          cases (h tscTimestamp : t = t')
          cases (h systemTime : s = s')
          cases (h tscToSystemMul : m = m')
          cases (h tscShift : sh = sh')
          rfl

end Field

/-! ## The time -/

/-- A shift of a 128-bit value. It is undefined for an amount that is negative or too large. -/
def shiftBy (left : Bool) (time : BitVec 128) (amount : ℤ) : Option (BitVec 128) :=
  if 0 ≤ amount ∧ amount < 128 then
    some (if left then time <<< amount.toNat else time >>> amount.toNat)
  else none

def elapsed (tsc tscTimestamp : BitVec 64) : BitVec 128 :=
  tsc.setWidth 128 - tscTimestamp.setWidth 128

/-- The two branches of the shift, with the value of `tsc_shift` at the second read. -/
def shifted (nonneg : Bool) (time : BitVec 128) (tscShift : BitVec 8) : Option (BitVec 128) :=
  shiftBy nonneg time (if nonneg then tscShift.toInt else -tscShift.toInt)

def scaled (time : Option (BitVec 128)) (tscToSystemMul : BitVec 32) : Option (BitVec 128) :=
  time.map fun time => (time * tscToSystemMul.setWidth 128) >>> 32

/-- The system time is added, and the offset of the clock is taken off. -/
def adjusted (offset : BitVec 64) (time : Option (BitVec 128)) (systemTime : BitVec 64) :
    Option (BitVec 64) :=
  time.map fun time => (time + systemTime.setWidth 128 - offset.signExtend 128).setWidth 64

/-- The time at a value of the counter, from the fields of one version. -/
def timeNs (offset : BitVec 64) (info : KvmclockInfo) (tsc : BitVec 64) : Option (BitVec 64) :=
  adjusted offset (scaled (shifted (decide (0 ≤ info.tscShift.toInt))
    (elapsed tsc info.tscTimestamp) info.tscShift) info.tscToSystemMul) info.systemTime

/-! ## Calls and updates -/

/-- Where a call of `time_ns` is, with the counter that it has read and what it has computed. -/
inductive Place
  | idle
  /-- At the head of the loop. -/
  | waiting
  | even
  | counted (tsc : BitVec 64)
  | elapsed (tsc : BitVec 64) (time : BitVec 128)
  /-- The sign of `tsc_shift` is known. -/
  | signed (tsc : BitVec 64) (time : BitVec 128) (nonneg : Bool)
  | shifted (tsc : BitVec 64) (time : Option (BitVec 128))
  | scaled (tsc : BitVec 64) (time : Option (BitVec 128))
  | returned (tsc : BitVec 64) (value : Option (BitVec 64))
deriving DecidableEq, Repr

/-- The fields that the call has still to read, once it has left the loop. -/
def Place.Ahead : Place → Field → Prop
  | even, _ | counted _, _ => True
  | elapsed _ _, f => f ≠ .tscTimestamp
  | signed _ _ _, f => f ≠ .tscTimestamp
  | shifted _ _, f => f = .tscToSystemMul ∨ f = .systemTime
  | scaled _ _, f => f = .systemTime
  | idle, _ | waiting, _ | returned _ _, _ => False

instance (place : Place) : DecidablePred place.Ahead := fun f =>
  match place with
  | .even | .counted _ => inferInstanceAs (Decidable True)
  | .elapsed _ _ | .signed _ _ _ => inferInstanceAs (Decidable (f ≠ .tscTimestamp))
  | .shifted _ _ => inferInstanceAs (Decidable (f = .tscToSystemMul ∨ f = .systemTime))
  | .scaled _ _ => inferInstanceAs (Decidable (f = .systemTime))
  | .idle | .waiting | .returned _ _ => inferInstanceAs (Decidable False)

/-- The page and the calls that read it. -/
structure State (ρ : Type*) where
  version : BitVec 32
  page : KvmclockInfo
  /-- The fields of the even versions up to now, the last one first. -/
  versions : List KvmclockInfo
  /-- What an update writes, and the fields that it has not yet rewritten. -/
  update : Option (KvmclockInfo × List Field)
  place : ρ → Place

inductive Op (ρ : Type*)
  /-- The hypervisor makes the version odd. -/
  | begin (next : KvmclockInfo)
  | write (field : Field)
  /-- It makes the version even again. -/
  | finish
  | call (reader : ρ)
  | rdtsc (reader : ρ) (tsc : BitVec 64)
  /-- The next read of the page. -/
  | read (reader : ρ)

namespace State

variable {ρ : Type*} [DecidableEq ρ]

def setPlace (s : State ρ) (reader : ρ) (place : Place) : State ρ :=
  { s with place := Function.update s.place reader place }

/-- The place after a read of the page. -/
def advance (offset : BitVec 64) (version : BitVec 32) (page : KvmclockInfo) : Place → Option Place
  | .waiting => some (if version.toNat % 2 = 1 then .waiting else .even)
  | .counted tsc => some (.elapsed tsc (elapsed tsc page.tscTimestamp))
  | .elapsed tsc time => some (.signed tsc time (decide (0 ≤ page.tscShift.toInt)))
  | .signed tsc time nonneg => some (.shifted tsc (shifted nonneg time page.tscShift))
  | .shifted tsc time => some (.scaled tsc (scaled time page.tscToSystemMul))
  | .scaled tsc time => some (.returned tsc (adjusted offset time page.systemTime))
  | .idle | .even | .returned _ _ => none

def step (offset : BitVec 64) (s : State ρ) : Op ρ → Option (State ρ)
  | .begin next =>
      match s.update with
      | none => some { s with version := s.version + 1, update := some (next, Field.all) }
      | some _ => none
  | .write field =>
      match s.update with
      | some (next, rest) =>
          if field ∈ rest then
            some { s with
              page := field.write next s.page
              update := some (next, rest.erase field) }
          else none
      | none => none
  | .finish =>
      match s.update with
      | some (next, []) =>
          some { s with
            version := s.version + 1
            versions := next :: s.versions
            update := none }
      | _ => none
  | .call reader =>
      match s.place reader with
      | .idle | .returned _ _ => some (s.setPlace reader .waiting)
      | _ => none
  | .rdtsc reader tsc =>
      match s.place reader with
      | .even => some (s.setPlace reader (.counted tsc))
      | _ => none
  | .read reader => (advance offset s.version s.page (s.place reader)).map (s.setPlace reader)

/-- The page that `init_cpu` constructs, with nothing in it. -/
def system (offset : BitVec 64) : TransitionSystem (State ρ) (Op ρ) where
  init s := s.version = 0 ∧ s.page = ⟨0, 0, 0, 0⟩ ∧ s.versions = [⟨0, 0, 0, 0⟩] ∧ s.update = none ∧
    ∀ reader, s.place reader = .idle
  step s op s' := s.step offset op = some s'

/-- No field is rewritten that a call has still to read. -/
def Settled (s : State ρ) : Op ρ → Prop
  | .write field => ∀ reader, ¬ (s.place reader).Ahead field
  | _ => True

instance (s : State Unit) : DecidablePred s.Settled := fun op =>
  match op with
  | .write field => decidable_of_iff (¬ (s.place ()).Ahead field) ⟨fun h _ => h, fun h => h ()⟩
  | .begin _ | .finish | .call _ | .rdtsc _ _ | .read _ => inferInstanceAs (Decidable True)

end State

/-! ## What a call has read -/

/-- What the call has computed comes from the fields of `info`. -/
def Place.Computed (offset : BitVec 64) (info : KvmclockInfo) : Place → Prop
  | idle | waiting | even | counted _ => True
  | elapsed tsc time => time = Kvm.elapsed tsc info.tscTimestamp
  | signed tsc time nonneg =>
      time = Kvm.elapsed tsc info.tscTimestamp ∧ nonneg = decide (0 ≤ info.tscShift.toInt)
  | shifted tsc time =>
      time = Kvm.shifted (decide (0 ≤ info.tscShift.toInt)) (Kvm.elapsed tsc info.tscTimestamp)
        info.tscShift
  | scaled tsc time =>
      time = Kvm.scaled (Kvm.shifted (decide (0 ≤ info.tscShift.toInt))
        (Kvm.elapsed tsc info.tscTimestamp) info.tscShift) info.tscToSystemMul
  | returned tsc value => value = timeNs offset info tsc

/-- The call uses the fields of one version, and finds those of that version in the page. -/
def Place.Good (offset : BitVec 64) (versions : List KvmclockInfo) (page : KvmclockInfo)
    (place : Place) : Prop :=
  ∃ info ∈ versions, (∀ f : Field, place.Ahead f → f.Same page info) ∧ place.Computed offset info

/-- Between two updates the page holds an even version, and in an update what is rewritten. -/
def PageInv (version : BitVec 32) (versions : List KvmclockInfo) (page : KvmclockInfo) :
    Option (KvmclockInfo × List Field) → Prop
  | none => version.toNat % 2 = 0 ∧ page ∈ versions
  | some (next, rest) =>
      version.toNat % 2 = 1 ∧ rest.Nodup ∧ ∀ f : Field, f ∉ rest → f.Same page next

theorem Place.Good.write {offset : BitVec 64} {versions : List KvmclockInfo}
    {page next : KvmclockInfo} {place : Place} {field : Field}
    (h : place.Good offset versions page) (hahead : ¬ place.Ahead field) :
    place.Good offset versions (field.write next page) := by
  obtain ⟨info, hmem, hsame, hcomputed⟩ := h
  refine ⟨info, hmem, fun f hf => ?_, hcomputed⟩
  have hne : f ≠ field := by
    rintro rfl
    exact hahead hf
  exact (Field.write_same_of_ne hne).mpr (hsame f hf)

/-- One read of a call, which goes on with the version that it has begun with. -/
theorem Place.Good.advance {offset : BitVec 64} {version : BitVec 32} {versions : List KvmclockInfo}
    {page : KvmclockInfo} {place place' : Place} (h : place.Good offset versions page)
    (hpage : version.toNat % 2 = 0 → page ∈ versions)
    (hstep : State.advance offset version page place = some place') :
    place'.Good offset versions page := by
  obtain ⟨info, hmem, hsame, hcomputed⟩ := h
  cases place with
  | idle => cases hstep
  | even => cases hstep
  | returned tsc value => cases hstep
  | waiting =>
      rw [State.advance] at hstep
      split at hstep
      · cases hstep
        exact ⟨info, hmem, fun f hf => hf.elim, trivial⟩
      · -- the version is even, and the page is that version
        cases hstep
        exact ⟨page, hpage (by omega), fun f _ => Field.Same.refl, trivial⟩
  | counted tsc =>
      cases hstep
      have htime : page.tscTimestamp = info.tscTimestamp := hsame .tscTimestamp trivial
      exact ⟨info, hmem, fun f _ => hsame f trivial, by rw [Computed, htime]⟩
  | elapsed tsc time =>
      cases hstep
      have hshift : page.tscShift = info.tscShift := hsame .tscShift nofun
      exact ⟨info, hmem, hsame, hcomputed, by rw [hshift]⟩
  | signed tsc time nonneg =>
      cases hstep
      have hshift : page.tscShift = info.tscShift := hsame .tscShift nofun
      obtain ⟨rfl, rfl⟩ := hcomputed
      refine ⟨info, hmem, fun f hf => hsame f ?_, by rw [Computed, hshift]⟩
      rcases hf with rfl | rfl <;> exact nofun
  | shifted tsc time =>
      cases hstep
      have hmul : page.tscToSystemMul = info.tscToSystemMul := hsame .tscToSystemMul (Or.inl rfl)
      cases hcomputed
      exact ⟨info, hmem, fun f hf => hsame f (Or.inr hf), by rw [Computed, hmul]⟩
  | scaled tsc time =>
      cases hstep
      have htime : page.systemTime = info.systemTime := hsame .systemTime rfl
      cases hcomputed
      exact ⟨info, hmem, fun f hf => hf.elim, by rw [Computed, timeNs, htime]⟩

namespace State

variable {ρ : Type*} [DecidableEq ρ] {offset : BitVec 64} {s s' : State ρ}

structure Inv (offset : BitVec 64) (s : State ρ) : Prop where
  page : PageInv s.version s.versions s.page s.update
  places : ∀ reader, (s.place reader).Good offset s.versions s.page

theorem Inv.setPlace (h : s.Inv offset) (reader : ρ) (place : Place)
    (hplace : place.Good offset s.versions s.page) : (s.setPlace reader place).Inv offset := by
  refine ⟨h.page, fun r => ?_⟩
  rw [State.setPlace]
  dsimp only
  by_cases hr : r = reader
  · rwa [hr, Function.update_self]
  · rw [Function.update_of_ne hr]
    exact h.places r

omit [DecidableEq ρ] in
/-- An even version is that of the page. -/
theorem Inv.page_mem (h : s.Inv offset) (heven : s.version.toNat % 2 = 0) : s.page ∈ s.versions := by
  have hpage := h.page
  cases hupdate : s.update with
  | none =>
      rw [hupdate] at hpage
      exact hpage.2
  | some update =>
      rw [hupdate] at hpage
      have hodd := hpage.1
      omega

theorem Inv.begin (h : s.Inv offset) {next : KvmclockInfo}
    (hstep : s.step offset (.begin next) = some s') : s'.Inv offset := by
  have hpage := h.page
  rw [step] at hstep
  split at hstep
  · rename_i hupdate
    cases hstep
    rw [hupdate] at hpage
    refine ⟨⟨?_, by decide, fun f hf => ?_⟩, h.places⟩
    · have heven := hpage.1
      rw [BitVec.toNat_add]
      change (s.version.toNat + 1) % 2 ^ 32 % 2 = 1
      omega
    · cases f <;> exact absurd (by decide) hf
  · cases hstep

theorem Inv.write (h : s.Inv offset) {field : Field} (hsettled : s.Settled (.write field))
    (hstep : s.step offset (.write field) = some s') : s'.Inv offset := by
  have hpage := h.page
  rw [step] at hstep
  split at hstep
  · rename_i next rest hupdate
    rw [hupdate] at hpage
    obtain ⟨hodd, hnodup, hsame⟩ := hpage
    split at hstep
    · cases hstep
      refine ⟨⟨hodd, hnodup.erase _, fun f hf => ?_⟩, fun reader =>
        (h.places reader).write (hsettled reader)⟩
      by_cases hne : f = field
      · rw [hne]
        exact Field.write_same
      · exact (Field.write_same_of_ne hne).mpr
          (hsame f fun hmem => hf ((List.mem_erase_of_ne hne).mpr hmem))
    · cases hstep
  · cases hstep

theorem Inv.finish (h : s.Inv offset) (hstep : s.step offset .finish = some s') : s'.Inv offset := by
  have hpage := h.page
  rw [step] at hstep
  split at hstep
  · rename_i next hupdate
    rw [hupdate] at hpage
    obtain ⟨hodd, -, hsame⟩ := hpage
    cases hstep
    have heq : s.page = next := Field.eq_of_same fun f => hsame f List.not_mem_nil
    refine ⟨⟨?_, heq ▸ List.mem_cons_self⟩, fun reader => ?_⟩
    · rw [BitVec.toNat_add]
      change (s.version.toNat + 1) % 2 ^ 32 % 2 = 0
      omega
    · obtain ⟨info, hmem, hgood⟩ := h.places reader
      exact ⟨info, List.mem_cons_of_mem _ hmem, hgood⟩
  · cases hstep

theorem Inv.step (h : s.Inv offset) {op : Op ρ} (hsettled : s.Settled op)
    (hstep : s.step offset op = some s') : s'.Inv offset := by
  cases op with
  | begin next => exact h.begin hstep
  | write field => exact h.write hsettled hstep
  | finish => exact h.finish hstep
  | call reader =>
      obtain ⟨info, hmem, -⟩ := h.places reader
      have hgood : Place.Good offset s.versions s.page .waiting :=
        ⟨info, hmem, fun f hf => hf.elim, trivial⟩
      rw [State.step] at hstep
      split at hstep
      · cases hstep
        exact h.setPlace reader _ hgood
      · cases hstep
        exact h.setPlace reader _ hgood
      · cases hstep
  | rdtsc reader tsc =>
      have hplace := h.places reader
      rw [State.step] at hstep
      split at hstep
      · rename_i heven
        rw [heven] at hplace
        cases hstep
        exact h.setPlace reader _ hplace
      · cases hstep
  | read reader =>
      rw [State.step] at hstep
      obtain ⟨place, hplace, rfl⟩ := Option.map_eq_some_iff.mp hstep
      exact h.setPlace reader place ((h.places reader).advance h.page_mem hplace)

/-- The runs in which no field is rewritten that a call has still to read. -/
def settled (offset : BitVec 64) : TransitionSystem (State ρ) (Op ρ) :=
  (system offset).restrict fun s op => s.Settled op

theorem inv_of_reachable (h : (settled offset).Reachable s) : s.Inv offset := by
  refine h.invariant ?_ fun s op s' _ hs hstep => hs.step hstep.1 hstep.2
  rintro s ⟨hversion, hpage, hversions, hupdate, hplace⟩
  refine ⟨?_, fun reader => ?_⟩
  · rw [hversion, hpage, hversions, hupdate]
    exact ⟨rfl, List.mem_cons_self⟩
  · rw [hplace reader, hversions]
    exact ⟨_, List.mem_cons_self, fun f hf => hf.elim, trivial⟩

end State

/-- In a run that rewrites no field that a call has still to read, every call returns the time by the
fields of one even version. -/
theorem returned_of_settled {ρ : Type*} [DecidableEq ρ] {offset : BitVec 64} {s : State ρ}
    (h : (State.settled offset).Reachable s) {reader : ρ} {tsc : BitVec 64}
    {value : Option (BitVec 64)} (hplace : s.place reader = .returned tsc value) :
    ∃ info ∈ s.versions, value = timeNs offset info tsc := by
  obtain ⟨info, hmem, -, hvalue⟩ := (State.inv_of_reachable h).places reader
  rw [hplace] at hvalue
  exact ⟨info, hmem, hvalue⟩

/-- Before the first update. -/
def exampleStart : State Unit := ⟨0, ⟨0, 0, 0, 0⟩, [⟨0, 0, 0, 0⟩], none, fun _ => .idle⟩

private theorem exampleStart_init (offset : BitVec 64) : (State.system offset).init exampleStart :=
  ⟨rfl, rfl, rfl, rfl, fun _ => rfl⟩

/-- The steps of an update. -/
def update (next : KvmclockInfo) : List (Op Unit) :=
  [.begin next, .write .tscTimestamp, .write .systemTime, .write .tscToSystemMul, .write .tscShift,
    .finish]

/-- The clock runs with the counter. -/
def exampleInfo (start : BitVec 64) : KvmclockInfo := ⟨start, start, 2 ^ 31, 1⟩

/-- A call at 1000, after an update that was made at 0. -/
theorem returned_of_settled_first : ∃ info ∈ [exampleInfo 0, ⟨0, 0, 0, 0⟩],
    some 1000 = timeNs 0 info 1000 := by
  have hrun : ∃ s : State Unit, (State.settled 0).Reachable s ∧
      s.place () = .returned 1000 (some 1000) ∧ s.versions = [exampleInfo 0, ⟨0, 0, 0, 0⟩] := by
    refine ⟨_, .of_foldlM (f := fun s op => if s.Settled op then s.step 0 op else none) (fun s op s' h => ?_)
      (update (exampleInfo 0) ++ [.call (), .read (), .rdtsc () 1000, .read (), .read (), .read (),
        .read (), .read ()]) (.init (exampleStart_init 0)) rfl, rfl, rfl⟩
    split at h
    · exact ⟨‹_›, h⟩
    · cases h
  obtain ⟨s, hs, hplace, hversions⟩ := hrun
  rw [← hversions]
  exact returned_of_settled hs hplace

/-- A whole update falls between the first field that the call reads and the next one. At 1000 the clock
returns 2000. -/
theorem not_returned :
    ¬ ∀ (offset : BitVec 64) (s : State Unit) (tsc : BitVec 64) (value : Option (BitVec 64)),
      (State.system offset).Reachable s → s.place () = .returned tsc value →
      ∃ info ∈ s.versions, value = timeNs offset info tsc := by
  intro h
  have hrun : ∃ s : State Unit, (State.system 0).Reachable s ∧
      s.place () = .returned 1000 (some 2000) ∧
      s.versions = [exampleInfo 1000, exampleInfo 0, ⟨0, 0, 0, 0⟩] :=
    ⟨_, .of_foldlM (fun _ _ _ h => h) (update (exampleInfo 0) ++
      [.call (), .read (), .rdtsc () 1000, .read ()] ++ update (exampleInfo 1000) ++
      [.read (), .read (), .read (), .read ()]) (.init (exampleStart_init 0)) rfl, rfl, rfl⟩
  obtain ⟨s, hs, hplace, hversions⟩ := hrun
  obtain ⟨info, hmem, hvalue⟩ := h 0 s 1000 _ hs hplace
  rw [hversions] at hmem
  revert info
  decide

end Ilobilix.Timers.Kvm
