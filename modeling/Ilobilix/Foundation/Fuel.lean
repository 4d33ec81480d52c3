import Mathlib.Order.Lattice
import Mathlib.Order.Lattice.Nat

/-!
# Loops with fuel

A loop whose termination depends on the state it runs on is embedded with a fuel argument and an
error for a run that was cut off. `Returns f a` says that the loop returns: from some amount of fuel
on, `f` has the result `a` and fuel no longer matters. `Stops f e` says the same of an error.
-/

universe u v

/-- With enough fuel `f` returns `a`. -/
def Returns {ε : Type u} {α : Type v} (f : ℕ → Except ε α) (a : α) : Prop :=
  ∃ N, ∀ fuel, N ≤ fuel → f fuel = .ok a

/-- With enough fuel `f` ends with the error `e`. -/
def Stops {ε : Type u} {α : Type v} (f : ℕ → Except ε α) (e : ε) : Prop :=
  ∃ N, ∀ fuel, N ≤ fuel → f fuel = .error e

namespace Returns

variable {ε : Type u} {α β : Type v}

/-- A run with more than `n` units of fuel. -/
theorem exists_lt {f : ℕ → Except ε α} {a : α} (hf : Returns f a) (n : ℕ) :
    ∃ fuel, n < fuel ∧ f fuel = .ok a := by
  obtain ⟨N, hN⟩ := hf
  have hle : N ≤ max N n + 1 := (le_max_left N n).trans (Nat.le_succ _)
  exact ⟨max N n + 1, Nat.lt_succ_of_le (le_max_right N n), hN _ hle⟩

/-- A computation that does not look at its fuel. -/
theorem of_eq {f : ℕ → Except ε α} {a : α} (h : ∀ fuel, f fuel = .ok a) : Returns f a :=
  ⟨0, fun fuel _ => h fuel⟩

/-- Two computations in a row. -/
theorem bind {f : ℕ → Except ε α} {g : ℕ → α → Except ε β} {a : α} {b : β} (hf : Returns f a)
    (hg : Returns (fun fuel => g fuel a) b) : Returns (fun fuel => f fuel >>= g fuel) b := by
  obtain ⟨M, hM⟩ := hf
  obtain ⟨N, hN⟩ := hg
  refine ⟨max M N, fun fuel h => ?_⟩
  change (f fuel >>= g fuel) = .ok b
  rw [hM fuel (le_trans (le_max_left M N) h)]
  exact hN fuel (le_trans (le_max_right M N) h)

/-- A computation that agrees with one that returns, from some amount of fuel on. -/
theorem congr {f g : ℕ → Except ε α} {a : α} (hf : Returns f a) {M : ℕ}
    (h : ∀ fuel, M ≤ fuel → g fuel = f fuel) : Returns g a := by
  obtain ⟨N, hN⟩ := hf
  refine ⟨max M N, fun fuel hfuel => ?_⟩
  rw [h fuel (le_trans (le_max_left M N) hfuel), hN fuel (le_trans (le_max_right M N) hfuel)]

/-- One turn of a loop: the rest of the run has one unit of fuel less. -/
theorem succ {f g : ℕ → Except ε α} {a : α} (hf : Returns f a) {M : ℕ}
    (h : ∀ fuel, M ≤ fuel → g (fuel + 1) = f fuel) : Returns g a := by
  obtain ⟨N, hN⟩ := hf
  refine ⟨max M N + 1, fun fuel hfuel => ?_⟩
  obtain ⟨n, rfl⟩ := Nat.exists_eq_add_of_le' (le_trans (Nat.le_add_left 1 _) hfuel)
  have hn : max M N ≤ n := Nat.le_of_succ_le_succ hfuel
  rw [h n (le_trans (le_max_left M N) hn), hN n (le_trans (le_max_right M N) hn)]

/-- The result is unique. -/
theorem unique {f : ℕ → Except ε α} {a b : α} (ha : Returns f a) (hb : Returns f b) : a = b := by
  obtain ⟨M, hM⟩ := ha
  obtain ⟨N, hN⟩ := hb
  have h := (hM (max M N) (le_max_left M N)).symm.trans (hN (max M N) (le_max_right M N))
  exact Except.ok.inj h

/-- A computation that returns does not stop with an error. -/
theorem not_stops {f : ℕ → Except ε α} {a : α} {e : ε} (ha : Returns f a) : ¬ Stops f e := by
  rintro ⟨M, hM⟩
  obtain ⟨N, hN⟩ := ha
  have h := (hM (max M N) (le_max_left M N)).symm.trans (hN (max M N) (le_max_right M N))
  cases h

theorem const_iff {x : Except ε α} {a : α} : Returns (fun _ => x) a ↔ x = .ok a :=
  ⟨fun ⟨N, hN⟩ => hN N le_rfl, fun h => of_eq fun _ => h⟩

end Returns

/-- With enough fuel finitely many statements about fuel hold at once. -/
theorem exists_fuel_forall {n : ℕ} {Q : ℕ → ℕ → Prop} (h : ∀ i < n, ∃ N, ∀ fuel, N ≤ fuel → Q i fuel) :
    ∃ N, ∀ fuel, N ≤ fuel → ∀ i < n, Q i fuel := by
  induction n with
  | zero => exact ⟨0, fun _ _ i hi => absurd hi (Nat.not_lt_zero i)⟩
  | succ n ih =>
      obtain ⟨N, hN⟩ := ih fun i hi => h i (Nat.lt_succ_of_lt hi)
      obtain ⟨N', hN'⟩ := h n (Nat.lt_succ_self n)
      refine ⟨max N N', fun fuel hfuel i hi => ?_⟩
      rcases Nat.lt_succ_iff_lt_or_eq.mp hi with hi | rfl
      · exact hN fuel (le_trans (le_max_left N N') hfuel) i hi
      · exact hN' fuel (le_trans (le_max_right N N') hfuel)

/-- More fuel does not change a run that was not cut off, which `e` stands for. -/
def FuelMono {ε : Type u} {α : Type v} (e : ε) (f : ℕ → Except ε α) : Prop :=
  ∀ fuel, f fuel ≠ .error e → f (fuel + 1) = f fuel

namespace FuelMono

variable {ε : Type u} {α : Type v} {e : ε} {f : ℕ → Except ε α}

theorem le (h : FuelMono e f) {m n : ℕ} (hmn : m ≤ n) (hm : f m ≠ .error e) : f n = f m := by
  induction hmn with
  | refl => rfl
  | step _ ih => rw [h _ (ih ▸ hm), ih]

/-- One run that is not cut off is enough. -/
theorem returns_iff (h : FuelMono e f) {a : α} : Returns f a ↔ ∃ fuel, f fuel = .ok a := by
  constructor
  · rintro ⟨N, hN⟩
    exact ⟨N, hN N le_rfl⟩
  · rintro ⟨N, hN⟩
    refine ⟨N, fun fuel hfuel => ?_⟩
    rw [h.le hfuel (by simp [hN]), hN]

theorem const (x : Except ε α) : FuelMono e fun _ => x := fun _ _ => rfl

theorem bind {β : Type v} {g : ℕ → α → Except ε β} (hf : FuelMono e f)
    (hg : ∀ a, FuelMono e fun fuel => g fuel a) : FuelMono e fun fuel => f fuel >>= g fuel := by
  intro fuel hne
  dsimp only at hne ⊢
  have hfirst : f fuel ≠ .error e := fun h => hne (by rw [h]; rfl)
  rw [hf fuel hfirst]
  cases hrun : f fuel with
  | error e' => rfl
  | ok a =>
      rw [hrun] at hne
      exact hg a fuel hne

/-- Two computations in a row, of which the first is not cut off where it returns. -/
theorem returns_bind_iff {β : Type v} {g : ℕ → α → Except ε β} {b : β} (hf : FuelMono e f) :
    Returns (fun fuel => f fuel >>= g fuel) b ↔
      ∃ a, Returns f a ∧ Returns (fun fuel => g fuel a) b := by
  constructor
  · rintro ⟨N, hN⟩
    have hrun := hN N le_rfl
    dsimp only at hrun
    cases hfirst : f N with
    | error e' =>
        rw [hfirst] at hrun
        cases hrun
    | ok a =>
        have ha : ∀ fuel, N ≤ fuel → f fuel = .ok a := fun fuel hfuel => by
          rw [hf.le hfuel (by rw [hfirst]; nofun), hfirst]
        refine ⟨a, ⟨N, ha⟩, N, fun fuel hfuel => ?_⟩
        have hrest := hN fuel hfuel
        dsimp only at hrest
        rw [ha fuel hfuel] at hrest
        exact hrest
  · rintro ⟨a, ha, hb⟩
    exact ha.bind hb

end FuelMono
