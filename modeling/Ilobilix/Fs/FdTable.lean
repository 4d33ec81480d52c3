import Ilobilix.Foundation.Transition
import Mathlib.Data.Finmap
import Mathlib.Data.Fintype.Card
import Mathlib.Order.Interval.Finset.Nat

/-!
# The descriptor table: `fdtable` in `system/vfs.cpp`

A table maps numbers to descriptors. `allocate_fd` takes the number it is asked for when that is not
in use. When it is, a forced call replaces the descriptor, and any other one counts up from `next_fd`
to the first number that is not in use.

`FdSpec` says what a table is for: an allocation returns the lowest number that is not in use. The
table refines it along every run in which no number below `next_fd` is free when an allocation starts
from there.
-/

namespace Ilobilix.Fs

/-- The largest value of an `int`. -/
def intMax : ℤ := 2147483647

/-- `++` on an `int`. -/
def incr (n : ℤ) : ℤ := if n = intMax then -intMax - 1 else n + 1

theorem incr_of_lt {n : ℤ} (h : n < intMax) : incr n = n + 1 :=
  if_neg h.ne

/-- `vfs::filedesc`. A file is an open file description, and `F` the type of their identities. -/
structure Filedesc (F : Type*) where
  file : F
  closexec : Bool
deriving DecidableEq

/-- `vfs::fdtable`. -/
structure FdTable (F : Type*) where
  fds : Finmap fun _ : ℤ => Filedesc F
  nextFd : ℤ

namespace FdTable

variable {F : Type*}

/-- A table without descriptors. -/
def empty : FdTable F := ⟨∅, 0⟩

/-- `fdtable::close`: whether there was a descriptor to erase. -/
def close (t : FdTable F) (fd : ℤ) : Bool × FdTable F :=
  (decide (fd ∈ t.fds), { t with fds := t.fds.erase fd })

/-- `fdtable::get`. -/
def get (t : FdTable F) (fd : ℤ) : Option (Filedesc F) := t.fds.lookup fd

/-- The loop `while (wlocked->contains(fd)) fd++` of `allocate_fd`. -/
def scan (t : FdTable F) : ℕ → ℤ → Option ℤ
  | 0, _ => none
  | fuel + 1, fd => if fd ∈ t.fds then t.scan fuel (incr fd) else some fd

/-- `fdtable::allocate_fd`. It does not return when the loop does not find a number; the loop has met
every number that it can find after as many turns as there are descriptors. -/
def allocateFd (t : FdTable F) (desc : Filedesc F) (fd : ℤ) (force : Bool) :
    Option (ℤ × FdTable F) :=
  if fd ∈ t.fds then
    if force then some (fd, { t with fds := (t.fds.erase fd).insert fd desc })
    else
      (t.scan (t.fds.keys.card + 1) t.nextFd).map fun fd =>
        (fd, { fds := t.fds.insert fd desc, nextFd := incr t.nextFd })
  else some (fd, { t with fds := t.fds.insert fd desc })

@[simp] theorem get_empty (n : ℤ) : (empty : FdTable F).get n = none := rfl

theorem get_eq_none {t : FdTable F} {n : ℤ} : t.get n = none ↔ n ∉ t.fds :=
  Finmap.lookup_eq_none

theorem get_close (t : FdTable F) (fd : ℤ) :
    (t.close fd).2.get = Function.update t.get fd none := by
  funext n
  by_cases h : n = fd
  · rw [h, Function.update_self]
    exact Finmap.lookup_erase _ _
  · rw [Function.update_of_ne h]
    exact Finmap.lookup_erase_ne h

/-- `n` is the first number not in use, counting up from `start`. -/
def FirstFree (t : FdTable F) (start n : ℤ) : Prop :=
  n ∉ t.fds ∧ ∃ k, n = incr^[k] start ∧ ∀ j < k, incr^[j] start ∈ t.fds

theorem FirstFree.unique {t : FdTable F} {start m n : ℤ} (hm : t.FirstFree start m)
    (hn : t.FirstFree start n) : m = n := by
  obtain ⟨hmfree, k, rfl, hk⟩ := hm
  obtain ⟨hnfree, l, rfl, hl⟩ := hn
  rcases lt_trichotomy k l with h | h | h
  · exact absurd (hl k h) hmfree
  · rw [h]
  · exact absurd (hk l h) hnfree

/-- The numbers passed on the way to the first free one are all different, so there are no more of
them than descriptors. -/
theorem le_card {t : FdTable F} {start : ℤ} {k : ℕ} (hfree : incr^[k] start ∉ t.fds)
    (hk : ∀ j < k, incr^[j] start ∈ t.fds) : k ≤ t.fds.keys.card := by
  have hinj : Set.InjOn (fun j => incr^[j] start) (Finset.range k) := by
    -- a number met twice would be met again after `k` turns, and so be in use
    have key : ∀ i j, i < j → j < k → incr^[i] start ≠ incr^[j] start := by
      intro i j hij hjk heq
      apply hfree
      have hshift : incr^[k] start = incr^[k - j + i] start := by
        calc incr^[k] start = incr^[k - j] (incr^[j] start) := by
              rw [← Function.iterate_add_apply, Nat.sub_add_cancel hjk.le]
          _ = incr^[k - j + i] start := by
              rw [← heq, ← Function.iterate_add_apply]
      rw [hshift]
      exact hk _ (by omega)
    intro i hi j hj heq
    simp only [Finset.coe_range, Set.mem_Iio] at hi hj
    rcases lt_trichotomy i j with h | h | h
    · exact absurd heq (key i j h hj)
    · exact h
    · exact absurd heq.symm (key j i h hi)
  have hsub : (Finset.range k).image (fun j => incr^[j] start) ⊆ t.fds.keys := by
    intro n hn
    obtain ⟨j, hj, rfl⟩ := Finset.mem_image.mp hn
    exact Finmap.mem_keys.mpr (hk j (Finset.mem_range.mp hj))
  calc k = ((Finset.range k).image fun j => incr^[j] start).card := by
        rw [Finset.card_image_of_injOn hinj, Finset.card_range]
    _ ≤ t.fds.keys.card := Finset.card_le_card hsub

theorem scan_of_free {t : FdTable F} {k : ℕ} : ∀ {fuel : ℕ} {start : ℤ}, k < fuel →
    incr^[k] start ∉ t.fds → (∀ j < k, incr^[j] start ∈ t.fds) →
    t.scan fuel start = some (incr^[k] start) := by
  induction k with
  | zero =>
      intro fuel start hfuel hfree _
      obtain ⟨fuel, rfl⟩ := Nat.exists_eq_succ_of_ne_zero hfuel.ne'
      exact if_neg hfree
  | succ k ih =>
      intro fuel start hfuel hfree hk
      obtain ⟨fuel, rfl⟩ := Nat.exists_eq_succ_of_ne_zero (Nat.ne_of_gt (Nat.zero_lt_of_lt hfuel))
      have hstart : start ∈ t.fds := hk 0 k.succ_pos
      rw [scan, if_pos hstart, Function.iterate_succ_apply]
      exact ih (by omega) hfree fun j hj => hk (j + 1) (by omega)

theorem free_of_scan {t : FdTable F} {fuel : ℕ} : ∀ {start n : ℤ},
    t.scan fuel start = some n → t.FirstFree start n := by
  induction fuel with
  | zero => intro start n h; cases h
  | succ fuel ih =>
      intro start n h
      rw [scan] at h
      split at h
      · rename_i hstart
        obtain ⟨hfree, k, rfl, hk⟩ := ih h
        refine ⟨hfree, k + 1, rfl, fun j hj => ?_⟩
        cases j with
        | zero => exact hstart
        | succ j => exact hk j (by omega)
      · rename_i hstart
        cases h
        exact ⟨hstart, 0, rfl, fun j hj => absurd hj (Nat.not_lt_zero j)⟩

/-- The loop finds the first number not in use whenever there is one. -/
theorem scan_eq_some_iff {t : FdTable F} {start n : ℤ} :
    t.scan (t.fds.keys.card + 1) start = some n ↔ t.FirstFree start n := by
  refine ⟨free_of_scan, fun h => ?_⟩
  obtain ⟨hfree, k, rfl, hk⟩ := h
  exact scan_of_free (Nat.lt_succ_of_le (le_card hfree hk)) hfree hk

/-- What a call of `allocate_fd` does: the number it returns, and when the call counts. -/
theorem allocateFd_eq_some {t t' : FdTable F} {desc : Filedesc F} {fd ret : ℤ} {force : Bool}
    (h : t.allocateFd desc fd force = some (ret, t')) :
    t'.get = Function.update t.get ret (some desc) ∧
      ((ret = fd ∧ (force = true ∨ fd ∉ t.fds) ∧ t'.nextFd = t.nextFd) ∨
        force = false ∧ fd ∈ t.fds ∧ t.FirstFree t.nextFd ret ∧ t'.nextFd = incr t.nextFd) := by
  have hinsert : ∀ (fds : Finmap fun _ : ℤ => Filedesc F) (n : ℤ),
      (∀ m, m ≠ n → fds.lookup m = t.fds.lookup m) →
        (fun m => (fds.insert n desc).lookup m) = Function.update t.get n (some desc) := by
    intro fds n hfds
    funext m
    by_cases hm : m = n
    · rw [hm, Finmap.lookup_insert, Function.update_self]
    · rw [Finmap.lookup_insert_of_ne _ hm, Function.update_of_ne hm, hfds m hm]
      rfl
  rw [allocateFd] at h
  split at h
  · rename_i hmem
    split at h
    · rename_i hforce
      cases h
      exact ⟨hinsert _ _ fun m hm => Finmap.lookup_erase_ne hm, .inl ⟨rfl, .inl hforce, rfl⟩⟩
    · rename_i hforce
      obtain ⟨n, hn, heq⟩ := Option.map_eq_some_iff.mp h
      cases heq
      exact ⟨hinsert _ _ fun m _ => rfl,
        .inr ⟨Bool.eq_false_iff.mpr hforce, hmem, scan_eq_some_iff.mp hn, rfl⟩⟩
  · rename_i hmem
    cases h
    exact ⟨hinsert _ _ fun m _ => rfl, .inl ⟨rfl, .inr hmem, rfl⟩⟩

end FdTable

/-! ## Runs of the table

Every method takes the lock of the table, so the system calls of the threads of a process interleave
as calls of the methods. A label holds the arguments of a call and what it returns.
-/

inductive FdCall (F : Type*)
  | allocateFd (desc : Filedesc F) (fd : ℤ) (force : Bool) (ret : ℤ)
  | close (fd : ℤ) (erased : Bool)
  | get (fd : ℤ) (found : Option (Filedesc F))

/-- The arguments the system calls pass: `openat` and `dup` ask for 0 and do not force it, `dup2` and
`dup3` force a number that is not negative. -/
def FdCall.Driven {F : Type*} : FdCall F → Prop
  | allocateFd _ fd force _ => if force then 0 ≤ fd else fd = 0
  | close _ _ | get _ _ => True

variable {F : Type*}

namespace FdTable

/-- One call of a method, with the value it returns. -/
def Performs (t : FdTable F) : FdCall F → FdTable F → Prop
  | .allocateFd desc fd force ret, t' => t.allocateFd desc fd force = some (ret, t')
  | .close fd erased, t' => t.close fd = (erased, t')
  | .get fd found, t' => t.get fd = found ∧ t' = t

end FdTable

/-- The runs of a descriptor table that starts empty. -/
def fdSystem (F : Type*) : TransitionSystem (FdTable F) (FdCall F) where
  init t := t = .empty
  step t call t' := call.Driven ∧ t.Performs call t'

/-- What a call is for: an allocation that is not forced returns the lowest number that is not in
use, and no call touches a descriptor it does not name. -/
def FdSpec (a : ℤ → Option (Filedesc F)) : FdCall F → (ℤ → Option (Filedesc F)) → Prop
  | .allocateFd desc fd force ret, a' =>
      (if force then ret = fd else 0 ≤ ret ∧ a ret = none ∧ ∀ n, 0 ≤ n → n < ret → a n ≠ none) ∧
        a' = Function.update a ret (some desc)
  | .close fd erased, a' => erased = (a fd).isSome ∧ a' = Function.update a fd none
  | .get fd found, a' => found = a fd ∧ a' = a

def fdSpecSystem (F : Type*) : TransitionSystem (ℤ → Option (Filedesc F)) (FdCall F) where
  init a := ∀ n, a n = none
  step := FdSpec

/-- An allocation that finds 0 in use starts from a `next_fd` that has not overflowed, with every
number below it in use and some other number free. -/
def FdTable.CountsFromUsed (t : FdTable F) : FdCall F → Prop
  | .allocateFd _ _ false _ => 0 ∈ t.fds → 0 ≤ t.nextFd ∧
      (∀ n, 0 ≤ n → n < t.nextFd → n ∈ t.fds) ∧ ∃ n, 0 ≤ n ∧ n ≤ intMax ∧ n ∉ t.fds
  | _ => True

namespace FdTable

variable {t t' : FdTable F}

theorem iterate_incr {start : ℤ} : ∀ {k : ℕ}, start + k ≤ intMax → incr^[k] start = start + k
  | 0, _ => (add_zero start).symm
  | k + 1, h => by
      push_cast at h ⊢
      rw [Function.iterate_succ_apply', iterate_incr (by omega), incr_of_lt (by omega)]
      omega

/-- Counting up from a number with every lower one in use finds the lowest free number. -/
theorem FirstFree.lowest {start ret : ℤ} (h : t.FirstFree start ret) (hstart : 0 ≤ start)
    (hused : ∀ n, 0 ≤ n → n < start → n ∈ t.fds) (hfree : ∃ n, 0 ≤ n ∧ n ≤ intMax ∧ n ∉ t.fds) :
    0 ≤ ret ∧ ∀ n, 0 ≤ n → n < ret → n ∈ t.fds := by
  obtain ⟨hret, k, rfl, hk⟩ := h
  obtain ⟨m, hm0, hmax, hm⟩ := hfree
  have hsm : start ≤ m := not_lt.mp fun hlt => hm (hused m hm0 hlt)
  -- the loop ends before it reaches `m`, so nothing overflows on the way
  have hkm : start + k ≤ m := by
    by_contra hlt
    have hj : incr^[(m - start).toNat] start = m := by
      rw [iterate_incr (by omega)]
      omega
    exact hm (hj ▸ hk _ (by omega))
  rw [iterate_incr (by omega)] at hret ⊢
  refine ⟨by omega, fun n hn0 hn => ?_⟩
  by_cases hns : n < start
  · exact hused n hn0 hns
  · have hj : incr^[(n - start).toNat] start = n := by
      rw [iterate_incr (by omega)]
      omega
    exact hj ▸ hk _ (by omega)

/-- One call of a method does what the specification says, provided an allocation counts from a
number below which everything is in use. -/
theorem performs_spec {call : FdCall F} (horder : t.CountsFromUsed call) (hdriven : call.Driven)
    (h : t.Performs call t') : FdSpec t.get call t'.get := by
  cases call with
  | close fd erased =>
      obtain ⟨rfl, rfl⟩ := Prod.mk.inj h
      refine ⟨?_, get_close t fd⟩
      rw [Bool.eq_iff_iff, decide_eq_true_iff]
      exact Finmap.lookup_isSome.symm
  | get fd found =>
      obtain ⟨rfl, rfl⟩ := h
      exact ⟨rfl, rfl⟩
  | allocateFd desc fd force ret =>
      obtain ⟨hget, hret⟩ := allocateFd_eq_some h
      refine ⟨?_, hget⟩
      cases force with
      | true =>
          obtain ⟨rfl, -, -⟩ | ⟨hforce, -⟩ := hret
          · exact rfl
          · cases hforce
      | false =>
          obtain rfl : fd = 0 := hdriven
          obtain ⟨rfl, hfree | hfree, -⟩ | ⟨-, hmem, hfirst, -⟩ := hret
          · cases hfree
          · exact ⟨le_rfl, get_eq_none.mpr hfree, fun n h0 hn => absurd hn (not_lt.mpr h0)⟩
          · obtain ⟨hnext, hused, hsome⟩ := horder hmem
            obtain ⟨h0, hlower⟩ := hfirst.lowest hnext hused hsome
            exact ⟨h0, get_eq_none.mpr hfirst.1, fun n hn0 hn hnone =>
              get_eq_none.mp hnone (hlower n hn0 hn)⟩

end FdTable

/-- Every run of the descriptor table in which no number below `next_fd` is free when an allocation
counts from there is a run of the specification, and the descriptors are the same at its end. -/
theorem fdtable_refines {tr : List (FdCall F)} {t : FdTable F}
    (h : ((fdSystem F).restrict FdTable.CountsFromUsed).Run tr t) :
    ∃ a, (fdSpecSystem F).Run tr a ∧ ∀ n, t.get n = a n := by
  obtain ⟨a, ha, hR⟩ := h.simulates (A := fdSpecSystem F) (R := fun t a => t.get = a)
    (fun t ht => ⟨t.get, fun n => by rw [ht, FdTable.get_empty], rfl⟩)
    (fun t a call t' hR hstep => by
      obtain ⟨horder, hdriven, hperf⟩ := hstep
      exact ⟨t'.get, hR ▸ FdTable.performs_spec horder hdriven hperf, rfl⟩)
  exact ⟨a, ha, fun n => congrFun hR n⟩

/-- The console, as the first process opens it. -/
def console : Filedesc Unit := ⟨(), false⟩

/-- The table with the console at the given numbers. -/
def consoleTable (numbers : List ℤ) (nextFd : ℤ) : FdTable Unit :=
  ⟨numbers.foldl (fun fds n => fds.insert n console) ∅, nextFd⟩

/-- Two descriptors are opened, the second one is replaced and closed, and its number is used again. -/
theorem fdtable_refines_reopened : ∃ tr a,
    ((fdSystem Unit).restrict FdTable.CountsFromUsed).Run tr (consoleTable [0, 1] 2) ∧
      (fdSpecSystem Unit).Run tr a ∧ a 1 = some console ∧ tr.length = 5 := by
  have h₁ : ((fdSystem Unit).restrict FdTable.CountsFromUsed).Run [] (consoleTable [] 0) :=
    .init rfl
  have h₂ : ((fdSystem Unit).restrict FdTable.CountsFromUsed).Run _ (consoleTable [0] 0) :=
    h₁.step (l := FdCall.allocateFd console 0 false 0) ⟨fun h => absurd h (by decide), rfl, rfl⟩
  have horder₃ : (consoleTable [0] 0).CountsFromUsed (.allocateFd console 0 false 1) :=
    fun _ => ⟨le_rfl, fun n h0 hn => absurd hn (not_lt.mpr h0), 1, by decide⟩
  have h₃ : ((fdSystem Unit).restrict FdTable.CountsFromUsed).Run _ (consoleTable [0, 1] 1) :=
    h₂.step (l := FdCall.allocateFd console 0 false 1) ⟨horder₃, rfl, rfl⟩
  have h₄ : ((fdSystem Unit).restrict FdTable.CountsFromUsed).Run _ (consoleTable [0, 1] 1) :=
    h₃.step (l := FdCall.allocateFd console 1 true 1) ⟨trivial, Int.one_nonneg, rfl⟩
  have h₅ : ((fdSystem Unit).restrict FdTable.CountsFromUsed).Run _ (consoleTable [0] 1) :=
    h₄.step (l := FdCall.close 1 true) ⟨trivial, trivial, rfl⟩
  have horder₆ : (consoleTable [0] 1).CountsFromUsed (.allocateFd console 0 false 1) := by
    refine fun _ => ⟨Int.one_nonneg, fun n h0 hn => ?_, 1, by decide⟩
    have : n = 0 := le_antisymm (Int.lt_add_one_iff.mp hn) h0
    rw [this]
    decide
  have h₆ : ((fdSystem Unit).restrict FdTable.CountsFromUsed).Run _ (consoleTable [0, 1] 2) :=
    h₅.step (l := FdCall.allocateFd console 0 false 1) ⟨horder₆, rfl, rfl⟩
  obtain ⟨a, ha, hget⟩ := fdtable_refines h₆
  exact ⟨_, a, h₆, ha, (hget 1).symm, rfl⟩

/-- With descriptor 1 closed again, an allocation returns 3: `close` does not move `next_fd` back. -/
theorem allocate_not_lowest : ∃ t t' : FdTable Unit, (fdSystem Unit).Reachable t ∧
    (fdSystem Unit).step t (.allocateFd console 0 false 3) t' ∧ t.get 1 = none := by
  have h₁ : (fdSystem Unit).Reachable (consoleTable [] 0) := .init rfl
  have h₂ : (fdSystem Unit).Reachable (consoleTable [0] 0) :=
    h₁.step (l := FdCall.allocateFd console 0 false 0) ⟨rfl, rfl⟩
  have h₃ : (fdSystem Unit).Reachable (consoleTable [0, 1] 1) :=
    h₂.step (l := FdCall.allocateFd console 0 false 1) ⟨rfl, rfl⟩
  have h₄ : (fdSystem Unit).Reachable (consoleTable [0, 1, 2] 2) :=
    h₃.step (l := FdCall.allocateFd console 0 false 2) ⟨rfl, rfl⟩
  have h₅ : (fdSystem Unit).Reachable (consoleTable [0, 2] 2) :=
    h₄.step (l := FdCall.close 1 true) ⟨trivial, rfl⟩
  exact ⟨_, consoleTable [0, 2, 3] 3, h₅, ⟨rfl, rfl⟩, rfl⟩

end Ilobilix.Fs
