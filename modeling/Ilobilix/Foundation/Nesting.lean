import Mathlib.Data.Set.Finite.Lattice
import Mathlib.Logic.Relation
import Mathlib.Order.WellFounded
import Mathlib.Order.Lattice.Nat

/-!
# Nested calls

A recursive procedure is run with a bound on the depth of its calls: `Finished f n` says that the
call `n` returns with calls nested at most `f` deep, and `Calls n m` that running `n` makes the call
`m`. Where only finitely many different calls can come up, a call returns if and only if no call is
made again while it is still running (`Nesting.finishes_iff`).
-/

open Relation

/-- How the calls that return relate to the calls they make. -/
structure Nesting {ν : Type*} (Finished : ℕ → ν → Prop) (Calls : ν → ν → Prop) : Prop where
  zero : ∀ n, ¬ Finished 0 n
  mono : ∀ f n, Finished f n → Finished (f + 1) n
  /-- A call that returns has returned from every call it made. -/
  call : ∀ f n m, Finished (f + 1) n → Calls n m → Finished f m
  /-- A call that runs out of depth does so in some call it makes. -/
  stuck : ∀ f n, ¬ Finished (f + 1) n → ∃ m, Calls n m ∧ ¬ Finished f m

namespace Nesting

variable {ν : Type*} {Finished : ℕ → ν → Prop} {Calls : ν → ν → Prop}

theorem mono_le (h : Nesting Finished Calls) {f g : ℕ} (hfg : f ≤ g) {n : ν} (hn : Finished f n) :
    Finished g n := by
  induction hfg with
  | refl => exact hn
  | step _ ih => exact h.mono _ _ ih

/-- A call made on the way needs less depth. -/
theorem descend (h : Nesting Finished Calls) {n m : ν} (hnm : TransGen Calls n m) :
    ∀ f, Finished f n → ∃ g < f, Finished g m := by
  have one : ∀ {a b : ν}, Calls a b → ∀ f, Finished f a → ∃ g < f, Finished g b := by
    intro a b hab f ha
    cases f with
    | zero => exact absurd ha (h.zero a)
    | succ f => exact ⟨f, f.lt_succ_self, h.call f a b ha hab⟩
  induction hnm with
  | single hab => exact one hab
  | tail _ hbc ih =>
      intro f hn
      obtain ⟨g, hg, hb⟩ := ih f hn
      obtain ⟨g', hg', hc⟩ := one hbc g hb
      exact ⟨g', hg'.trans hg, hc⟩

/-- A call that comes back to itself never returns. -/
theorem not_finished_of_cycle (h : Nesting Finished Calls) {n : ν} (hn : TransGen Calls n n) :
    ∀ f, ¬ Finished f n := by
  intro f
  induction f using Nat.strong_induction_on with
  | _ f ih =>
      intro hf
      obtain ⟨g, hg, hfin⟩ := h.descend hn f hf
      exact ih g hg hfin

/-- Finitely many calls that all return do so at a common depth. -/
theorem exists_depth (h : Nesting Finished Calls) {S : Set ν} (hS : S.Finite)
    (hfin : ∀ n ∈ S, ∃ f, Finished f n) : ∃ f, ∀ n ∈ S, Finished f n := by
  induction S, hS using Set.Finite.induction_on with
  | empty => exact ⟨0, fun n hn => absurd hn (Set.notMem_empty n)⟩
  | @insert a S _ _ ih =>
      obtain ⟨f, hf⟩ := ih fun n hn => hfin n (Set.mem_insert_of_mem a hn)
      obtain ⟨g, hg⟩ := hfin a (Set.mem_insert a S)
      refine ⟨max f g, fun n hn => ?_⟩
      obtain rfl | hn := Set.mem_insert_iff.mp hn
      · exact h.mono_le (le_max_right f g) hg
      · exact h.mono_le (le_max_left f g) (hf n hn)

/-- A call that never returns makes a call that never returns. -/
theorem exists_endless_call (h : Nesting Finished Calls) {n : ν} (hfin : {m | Calls n m}.Finite)
    (hn : ∀ f, ¬ Finished f n) : ∃ m, Calls n m ∧ ∀ f, ¬ Finished f m := by
  by_contra hall
  push Not at hall
  obtain ⟨f, hf⟩ := h.exists_depth hfin hall
  obtain ⟨m, hm, hstuck⟩ := h.stuck f n (hn (f + 1))
  exact hstuck (hf m hm)

/-- A call returns if and only if it never makes a call again that is still running. -/
theorem finishes_iff (h : Nesting Finished Calls) {n : ν}
    (hfin : {m | ReflTransGen Calls n m}.Finite) :
    (∃ f, Finished f n) ↔ ∀ m, ReflTransGen Calls n m → ¬ TransGen Calls m m := by
  constructor
  · rintro ⟨f, hf⟩ m hnm hcycle
    obtain rfl | hnm := reflTransGen_iff_eq_or_transGen.mp hnm
    · exact h.not_finished_of_cycle hcycle f hf
    · obtain ⟨g, -, hm⟩ := h.descend hnm f hf
      exact h.not_finished_of_cycle hcycle g hm
  · intro hacyclic
    by_contra hn
    push Not at hn
    -- among the endless calls below `n`, the call relation would be well-founded
    let E : Type _ := {m // ReflTransGen Calls n m}
    have : Finite E := hfin.to_subtype
    let r : E → E → Prop := fun a b => TransGen Calls b.1 a.1
    have : IsTrans E r := ⟨fun _ _ _ hab hbc => hbc.trans hab⟩
    have : Std.Irrefl r := ⟨fun a ha => hacyclic a.1 a.2 ha⟩
    have hwf : WellFounded r := Finite.wellFounded_of_trans_of_irrefl r
    obtain ⟨⟨m, hm⟩, hend, hmin⟩ :=
      hwf.has_min {a | ∀ f, ¬ Finished f a.1} ⟨⟨n, .refl⟩, hn⟩
    have hcalls : {k | Calls m k}.Finite := hfin.subset fun k hk => hm.tail hk
    obtain ⟨k, hk, hkend⟩ := h.exists_endless_call hcalls hend
    exact hmin ⟨k, hm.tail hk⟩ hkend (.single hk)

/-- The same for a procedure outside the recursion, which returns once all calls it makes have
returned. -/
theorem client_finishes_iff (h : Nesting Finished Calls) {F : ℕ → Prop} {C : ν → Prop}
    (hcall : ∀ f m, F f → C m → Finished f m) (hstuck : ∀ f, ¬ F f → ∃ m, C m ∧ ¬ Finished f m)
    (hfin : {m | ∃ n, C n ∧ ReflTransGen Calls n m}.Finite) :
    (∃ f, F f) ↔ ∀ n m, C n → ReflTransGen Calls n m → ¬ TransGen Calls m m := by
  have hnode : ∀ n, C n → ((∃ f, Finished f n) ↔
      ∀ m, ReflTransGen Calls n m → ¬ TransGen Calls m m) := fun n hn =>
    h.finishes_iff (hfin.subset fun m hm => ⟨n, hn, hm⟩)
  constructor
  · rintro ⟨f, hf⟩ n m hn
    exact (hnode n hn).mp ⟨f, hcall f n hf hn⟩ m
  · intro hacyclic
    have hC : {n | C n}.Finite := hfin.subset fun n hn => ⟨n, hn, .refl⟩
    obtain ⟨f, hf⟩ := h.exists_depth hC fun n hn => (hnode n hn).mpr (hacyclic n · hn)
    by_contra hnone
    push Not at hnone
    obtain ⟨m, hm, hm'⟩ := hstuck f (hnone f)
    exact hm' (hf m hm)

end Nesting
