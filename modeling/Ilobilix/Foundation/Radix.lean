import Mathlib.Data.List.Basic
import Mathlib.Data.List.Nodup
import Mathlib.Data.Set.Basic
import Mathlib.Logic.Function.Basic

/-!
# Radix trees in memory

A radix tree of fixed depth is kept in tables `mem : α → ι → ε` named by `α` and indexed by `ι`.
`child` says which entries point to a further table. `walk` follows a list of indices from table to
table, and `slot` finds the entry that decides about an address, with the indices it leaves unused:
an entry above the last level that does not point to a table decides about a whole block. `lookup`
forgets empty entries, so that it does not depend on how far the tables reach, and `Clear` says that
there is nothing but tables and empty entries on the way along a path.

Tables are shared between addresses, so an update is only local when no table is reached in two ways.
`Tree` states that for the paths of a set `S`, and the two updates of such a tree, writing an entry
and hanging in an empty table, come with a lemma for each of `walk`, `slot` and `Tree`.

`tables` lists the tables in the order in which a recursion leaves them.
-/

namespace Radix

variable {α ι ε : Type*}

/-- The table that the indices lead to from the table `t`. -/
def walk (child : ε → Option α) (mem : α → ι → ε) : α → List ι → Option α
  | t, [] => some t
  | t, i :: is => (child (mem t i)).bind fun t' => walk child mem t' is

/-- The entry that decides about an address, with the indices below it. -/
def slot (child : ε → Option α) (mem : α → ι → ε) : α → List ι → Option (List ι × ε)
  | _, [] => none
  | t, [i] => some ([], mem t i)
  | t, i :: j :: is =>
      match child (mem t i) with
      | some t' => slot child mem t' (j :: is)
      | none => some (j :: is, mem t i)

/-- The non-empty entry that decides about an address. -/
def lookup [DecidableEq ε] (child : ε → Option α) (empty : ε) (mem : α → ι → ε) (t : α)
    (q : List ι) : Option (List ι × ε) :=
  (slot child mem t q).filter fun s => s.2 ≠ empty

/-- Every entry along the path points to a table, up to the first empty one. -/
def Clear (child : ε → Option α) (empty : ε) (mem : α → ι → ε) : α → List ι → Prop
  | _, [] => True
  | t, i :: is =>
      mem t i = empty ∨ ∃ t', child (mem t i) = some t' ∧ Clear child empty mem t' is

section Basic

variable {child : ε → Option α} {mem mem' : α → ι → ε}

theorem walk_append (t : α) (p q : List ι) :
    walk child mem t (p ++ q) = (walk child mem t p).bind fun t' => walk child mem t' q := by
  induction p generalizing t with
  | nil => rfl
  | cons i p ih =>
      rw [List.cons_append, walk, walk, Option.bind_assoc]
      exact congrArg _ (funext ih)

theorem walk_concat {t t' : α} {p : List ι} (h : walk child mem t p = some t') (i : ι) :
    walk child mem t (p ++ [i]) = child (mem t' i) := by
  rw [walk_append, h, Option.bind_some, walk]
  cases child (mem t' i) <;> rfl

theorem slot_append {t t' : α} {p r : List ι} (h : walk child mem t p = some t') (hr : r ≠ []) :
    slot child mem t (p ++ r) = slot child mem t' r := by
  induction p generalizing t with
  | nil => rw [walk, Option.some.injEq] at h; rw [h, List.nil_append]
  | cons i p ih =>
      rw [walk, Option.bind_eq_some_iff] at h
      obtain ⟨t₁, hi, ht₁⟩ := h
      obtain ⟨j, js, hjs⟩ := List.exists_cons_of_ne_nil (l := p ++ r) (by simp [hr])
      rw [List.cons_append, hjs, slot, hi, ← hjs]
      exact ih ht₁

/-- Some entry decides about every address. -/
theorem exists_slot {t : α} {q : List ι} (hq : q ≠ []) : ∃ s, slot child mem t q = some s := by
  induction q generalizing t with
  | nil => exact absurd rfl hq
  | cons i q ih =>
      cases q with
      | nil => exact ⟨_, rfl⟩
      | cons j q =>
          rw [slot]
          cases child (mem t i) with
          | some t' => exact ih (List.cons_ne_nil j q)
          | none => exact ⟨_, rfl⟩

/-- The entry that decides uses at least one index. -/
theorem length_of_slot {t : α} {q rest : List ι} {e : ε} (h : slot child mem t q = some (rest, e)) :
    rest.length < q.length := by
  induction q generalizing t with
  | nil => cases h
  | cons i q ih =>
      cases q with
      | nil =>
          rw [slot, Option.some.injEq, Prod.mk.injEq] at h
          rw [← h.1]
          exact Nat.zero_lt_one
      | cons j q =>
          rw [slot] at h
          cases hi : child (mem t i) with
          | some t' =>
              rw [hi] at h
              exact (ih h).trans (Nat.lt_succ_self _)
          | none =>
              rw [hi, Option.some.injEq, Prod.mk.injEq] at h
              rw [← h.1]
              exact Nat.lt_succ_self _

/-- Two memories agree on the entries read on the way along `q`. -/
def Agree (child : ε → Option α) (mem mem' : α → ι → ε) (t : α) (q : List ι) : Prop :=
  ∀ p i r t', q = p ++ i :: r → walk child mem t p = some t' → mem' t' i = mem t' i

theorem Agree.tail {t t' : α} {i : ι} {q : List ι} (h : Agree child mem mem' t (i :: q))
    (hi : child (mem t i) = some t') : Agree child mem mem' t' q := by
  intro p j r t'' hq hw
  refine h (i :: p) j r t'' (by rw [hq, List.cons_append]) ?_
  rw [walk, hi, Option.bind_some, hw]

theorem Agree.head {t : α} {i : ι} {q : List ι} (h : Agree child mem mem' t (i :: q)) :
    mem' t i = mem t i :=
  h [] i q t rfl rfl

theorem Agree.walk_eq {t : α} {q : List ι} (h : Agree child mem mem' t q) :
    walk child mem' t q = walk child mem t q := by
  induction q generalizing t with
  | nil => rfl
  | cons i q ih =>
      rw [walk, walk, h.head]
      cases hi : child (mem t i) with
      | none => rfl
      | some t' => exact ih (h.tail hi)

theorem Agree.slot_eq {t : α} {q : List ι} (h : Agree child mem mem' t q) :
    slot child mem' t q = slot child mem t q := by
  induction q generalizing t with
  | nil => rfl
  | cons i q ih =>
      cases q with
      | nil => rw [slot, slot, h.head]
      | cons j q =>
          rw [slot, slot, h.head]
          cases hi : child (mem t i) with
          | none => rfl
          | some t' => exact ih (h.tail hi)

theorem Agree.clear {empty : ε} {t : α} {q : List ι} (h : Agree child mem mem' t q)
    (hc : Clear child empty mem t q) : Clear child empty mem' t q := by
  induction q generalizing t with
  | nil => trivial
  | cons i q ih =>
      rw [Clear, h.head]
      rcases hc with hc | ⟨t', hi, hc⟩
      · exact Or.inl hc
      · exact Or.inr ⟨t', hi, ih (h.tail hi) hc⟩

/-- The part of a path that was walked already is clear. -/
theorem clear_append {empty : ε} {t t' : α} {p r : List ι} (h : walk child mem t p = some t')
    (hc : Clear child empty mem t' r) : Clear child empty mem t (p ++ r) := by
  induction p generalizing t with
  | nil => rw [walk, Option.some.injEq] at h; rwa [h]
  | cons i p ih =>
      rw [walk, Option.bind_eq_some_iff] at h
      obtain ⟨t₁, hi, ht₁⟩ := h
      exact Or.inr ⟨t₁, hi, ih ht₁⟩

theorem clear_of_append {empty : ε} (hempty : child empty = none) {t t' : α} {p r : List ι}
    (h : walk child mem t p = some t') (hc : Clear child empty mem t (p ++ r)) :
    Clear child empty mem t' r := by
  induction p generalizing t with
  | nil => rw [walk, Option.some.injEq] at h; rwa [← h]
  | cons i p ih =>
      rw [walk, Option.bind_eq_some_iff] at h
      obtain ⟨t₁, hi, ht₁⟩ := h
      rcases hc with hc | ⟨t₂, hi₂, hc⟩
      · rw [hc, hempty] at hi
        cases hi
      · rw [hi, Option.some.injEq] at hi₂
        exact ih ht₁ (hi₂ ▸ hc)

/-- Where a clear path does not lead to a table, an empty entry decides. -/
theorem slot_of_walk_none {empty : ε} {t : α} {q r : List ι} (hc : Clear child empty mem t q)
    (hempty : child empty = none) (hw : walk child mem t q = none) (hr : r ≠ []) :
    ∃ rest, slot child mem t (q ++ r) = some (rest, empty) := by
  induction q generalizing t with
  | nil => cases hw
  | cons i q ih =>
      obtain ⟨j, js, hjs⟩ := List.exists_cons_of_ne_nil (l := q ++ r) (by simp [hr])
      rw [List.cons_append, hjs, slot, ← hjs]
      rcases hc with hc | ⟨t', hi, hc⟩
      · rw [hc, hempty]
        exact ⟨_, rfl⟩
      · rw [walk, hi, Option.bind_some] at hw
        rw [hi]
        exact ih hc hw

end Basic

/-! ## Listing the tables -/

/-- The tables down to `n` levels from `t` on, each one behind the tables below it. The indices `is`
are tried in `t`, and `all` in the tables below. -/
def tables (child : ε → Option α) (mem : α → ι → ε) (all : List ι) : ℕ → List ι → α → List α
  | 0, _, _ => []
  | n + 1, is, t =>
      (is.flatMap fun i => (child (mem t i)).elim [] (tables child mem all n all)) ++ [t]

/-- The paths that `tables` goes along. -/
def Listed (all is : List ι) (n : ℕ) (p : List ι) : Prop :=
  p.length < n ∧ (∀ i ∈ p.head?, i ∈ is) ∧ ∀ i ∈ p.tail, i ∈ all

section Tables

variable {child : ε → Option α} {mem mem' : α → ι → ε} {all is : List ι} {n : ℕ} {s t : α}

theorem listed_nil (hn : 0 < n) : Listed all is n [] :=
  ⟨hn, fun _ hi => absurd hi (by simp), fun _ hi => absurd hi List.not_mem_nil⟩

theorem listed_cons {i : ι} {p : List ι} (hi : i ∈ is) (hp : Listed all all n p) :
    Listed all is (n + 1) (i :: p) := by
  obtain ⟨hlen, hhead, htail⟩ := hp
  refine ⟨Nat.succ_lt_succ hlen, fun j hj => ?_, fun j hj => ?_⟩
  · obtain rfl := Option.some.inj hj
    exact hi
  · rcases p with - | ⟨k, p⟩
    · cases hj
    · rcases List.mem_cons.mp hj with rfl | hj
      · exact hhead j rfl
      · exact htail j hj

theorem listed_of_cons {i : ι} {p : List ι} (h : Listed all is (n + 1) (i :: p)) :
    i ∈ is ∧ Listed all all n p :=
  ⟨h.2.1 i rfl, Nat.lt_of_succ_lt_succ h.1, fun j hj => h.2.2 j (List.mem_of_mem_head? hj),
    fun j hj => h.2.2 j (List.mem_of_mem_tail hj)⟩

theorem mem_tables : s ∈ tables child mem all n is t ↔
    ∃ p, Listed all is n p ∧ walk child mem t p = some s := by
  induction n generalizing is t with
  | zero => exact ⟨fun h => absurd h List.not_mem_nil, fun ⟨_, hp, _⟩ => absurd hp.1 (Nat.not_lt_zero _)⟩
  | succ n ih =>
      rw [tables, List.mem_append, List.mem_flatMap, List.mem_singleton]
      constructor
      · rintro (⟨i, hi, hs⟩ | rfl)
        · cases hc : child (mem t i) with
          | none =>
              rw [hc] at hs
              cases hs
          | some t' =>
              rw [hc, Option.elim_some] at hs
              obtain ⟨p, hp, hw⟩ := ih.mp hs
              exact ⟨i :: p, listed_cons hi hp, by rw [walk, hc, Option.bind_some, hw]⟩
        · exact ⟨[], listed_nil (Nat.succ_pos n), rfl⟩
      · rintro ⟨- | ⟨i, p⟩, hp, hw⟩
        · exact Or.inr (Option.some.inj hw).symm
        · obtain ⟨hi, hp⟩ := listed_of_cons hp
          rw [walk, Option.bind_eq_some_iff] at hw
          obtain ⟨t', hc, hw⟩ := hw
          refine Or.inl ⟨i, hi, ?_⟩
          rw [hc, Option.elim_some]
          exact ih.mpr ⟨p, hp, hw⟩

/-- Where no table is reached along two paths, none is listed twice. -/
theorem nodup_tables (hall : all.Nodup) (his : is.Nodup)
    (h : ∀ p q, Listed all is n p → Listed all is n q → ∀ s, walk child mem t p = some s →
      walk child mem t q = some s → p = q) : (tables child mem all n is t).Nodup := by
  induction n generalizing is t with
  | zero => exact List.nodup_nil
  | succ n ih =>
      -- a table below an entry, with its path from `t`
      have hbelow : ∀ i ∈ is, ∀ s ∈ (child (mem t i)).elim [] (tables child mem all n all),
          ∃ p, Listed all is (n + 1) (i :: p) ∧ walk child mem t (i :: p) = some s := by
        intro i hi s hs
        cases hc : child (mem t i) with
        | none =>
            rw [hc] at hs
            cases hs
        | some t' =>
            rw [hc, Option.elim_some] at hs
            obtain ⟨p, hp, hw⟩ := mem_tables.mp hs
            exact ⟨p, listed_cons hi hp, by rw [walk, hc, Option.bind_some, hw]⟩
      rw [tables, List.nodup_append]
      refine ⟨List.nodup_flatMap.mpr ⟨fun i hi => ?_, ?_⟩, List.nodup_singleton t, ?_⟩
      · cases hc : child (mem t i) with
        | none => exact List.nodup_nil
        | some t' =>
            refine ih hall fun p q hp hq s hwp hwq => ?_
            have hcons := h (i :: p) (i :: q) (listed_cons hi hp) (listed_cons hi hq) s
              (by rw [walk, hc, Option.bind_some, hwp]) (by rw [walk, hc, Option.bind_some, hwq])
            exact (List.cons.inj hcons).2
      · refine his.imp_of_mem fun {i j} hi hj hij s hsi hsj => ?_
        obtain ⟨p, hp, hwp⟩ := hbelow i hi s hsi
        obtain ⟨q, hq, hwq⟩ := hbelow j hj s hsj
        exact hij (List.cons.inj (h _ _ hp hq s hwp hwq)).1
      · rintro s hs s' hs' rfl
        obtain ⟨i, hi, hs⟩ := List.mem_flatMap.mp hs
        obtain ⟨p, hp, hw⟩ := hbelow i hi s hs
        have hnil : walk child mem t [] = some s := by rw [List.mem_singleton.mp hs', walk]
        cases h _ _ hp (listed_nil (Nat.succ_pos n)) s hw hnil

/-- The list depends only on the tables in it. -/
theorem tables_congr (h : ∀ s ∈ tables child mem all n is t, mem' s = mem s) :
    tables child mem' all n is t = tables child mem all n is t := by
  induction n generalizing is t with
  | zero => rfl
  | succ n ih =>
      have ht : mem' t = mem t := h t (List.mem_append_right _ (List.mem_singleton_self t))
      rw [tables, tables, ht]
      congr 1
      refine List.flatMap_congr fun i hi => ?_
      cases hc : child (mem t i) with
      | none => rfl
      | some t' =>
          refine ih fun s hs => h s (List.mem_append_left _ (List.mem_flatMap.mpr ⟨i, hi, ?_⟩))
          rwa [hc, Option.elim_some]

end Tables

/-- No table is reached along two paths of `S`. -/
structure Tree (child : ε → Option α) (mem : α → ι → ε) (root : α) (S : Set (List ι)) : Prop where
  inj : ∀ p ∈ S, ∀ q ∈ S, ∀ t, walk child mem root p = some t → walk child mem root q = some t → p = q

/-- Sets of paths that contain the path to every table on the way. -/
def PrefixClosed (S : Set (List ι)) : Prop := ∀ p q, p ++ q ∈ S → p ∈ S

theorem PrefixClosed.dropLast {S : Set (List ι)} (hS : PrefixClosed S) {q : List ι} (hq : q ∈ S) :
    q.dropLast ∈ S := by
  obtain ⟨r, hr⟩ := List.dropLast_prefix q
  exact hS q.dropLast r (hr.symm ▸ hq)

private theorem not_prefix_self (p : List ι) (j : ι) : ¬ p ++ [j] <+: p := by
  intro h
  have := h.length_le
  rw [List.length_append, List.length_singleton] at this
  omega

/-- Write one entry. -/
def set [DecidableEq α] [DecidableEq ι] (mem : α → ι → ε) (t : α) (j : ι) (e : ε) : α → ι → ε :=
  Function.update mem t (Function.update (mem t) j e)

section Updates

variable [DecidableEq α] [DecidableEq ι]

@[simp] theorem set_same (mem : α → ι → ε) (t : α) (j : ι) (e : ε) : set mem t j e t j = e := by
  simp [set]

theorem set_of_ne {mem : α → ι → ε} {t t' : α} {j i : ι} {e : ε} (h : ¬ (t' = t ∧ i = j)) :
    set mem t j e t' i = mem t' i := by
  by_cases ht : t' = t
  · subst ht
    have hi : i ≠ j := fun hi => h ⟨rfl, hi⟩
    simp [set, hi]
  · simp [set, ht]

theorem set_of_table_ne {mem : α → ι → ε} {t t' : α} {j : ι} {e : ε} (h : t' ≠ t) :
    set mem t j e t' = mem t' := by
  simp [set, h]

variable {child : ε → Option α} {mem : α → ι → ε} {root t n : α} {S : Set (List ι)}
  {p q : List ι} {j : ι} {e : ε}

/-- A path that does not go through the entry written reads the old memory. -/
theorem Tree.agree_set (h : Tree child mem root S) (hS : PrefixClosed S) (hp : p ∈ S)
    (hw : walk child mem root p = some t) (hq : q.dropLast ∈ S) (hpq : ¬ p ++ [j] <+: q) (e : ε) :
    Agree child mem (set mem t j e) root q := by
  intro q₁ i r t' hq₁ hw₁
  refine set_of_ne ?_
  rintro ⟨rfl, rfl⟩
  have hmem : q₁ ∈ S := by
    rw [hq₁, List.dropLast_append_cons] at hq
    exact hS _ _ hq
  refine hpq ⟨r, ?_⟩
  rw [hq₁, h.inj p hp q₁ hmem t' hw hw₁, List.append_assoc, List.singleton_append]

theorem Tree.walk_set_of_apart (h : Tree child mem root S) (hS : PrefixClosed S) (hp : p ∈ S)
    (hw : walk child mem root p = some t) (hq : q.dropLast ∈ S) (hpq : ¬ p ++ [j] <+: q) :
    walk child (set mem t j e) root q = walk child mem root q :=
  (h.agree_set hS hp hw hq hpq e).walk_eq

theorem Tree.slot_set_of_apart (h : Tree child mem root S) (hS : PrefixClosed S) (hp : p ∈ S)
    (hw : walk child mem root p = some t) (hq : q.dropLast ∈ S) (hpq : ¬ p ++ [j] <+: q) :
    slot child (set mem t j e) root q = slot child mem root q :=
  (h.agree_set hS hp hw hq hpq e).slot_eq

/-- The path to the table that was written to is still there. -/
theorem Tree.walk_set_self (h : Tree child mem root S) (hS : PrefixClosed S) (hp : p ∈ S)
    (hw : walk child mem root p = some t) : walk child (set mem t j e) root p = some t := by
  rw [h.walk_set_of_apart hS hp hw (hS.dropLast hp) (not_prefix_self p j), hw]

/-- The entry written decides about the addresses below it, unless it points to a table. -/
theorem Tree.slot_set_below (h : Tree child mem root S) (hS : PrefixClosed S) (hp : p ∈ S)
    (hw : walk child mem root p = some t) (r : List ι) (he : r = [] ∨ child e = none) :
    slot child (set mem t j e) root (p ++ j :: r) = some (r, e) := by
  rw [slot_append (h.walk_set_self hS hp hw) (List.cons_ne_nil j r)]
  cases r with
  | nil => rw [slot, set_same]
  | cons i r =>
      have hnone : child e = none := he.resolve_left (List.cons_ne_nil i r)
      rw [slot, set_same, hnone]

/-- Beyond an entry that does not point to a table there is nothing. -/
theorem Tree.walk_set_below (h : Tree child mem root S) (hS : PrefixClosed S) (hp : p ∈ S)
    (hw : walk child mem root p = some t) (r : List ι) :
    walk child (set mem t j e) root (p ++ j :: r) =
      (child e).bind fun t' => walk child (set mem t j e) t' r := by
  rw [walk_append, h.walk_set_self hS hp hw, Option.bind_some, walk, set_same]

theorem Tree.clear_set_of_apart {empty : ε} (h : Tree child mem root S) (hS : PrefixClosed S)
    (hp : p ∈ S) (hw : walk child mem root p = some t) (hq : q.dropLast ∈ S)
    (hpq : ¬ p ++ [j] <+: q) (hc : Clear child empty mem root q) :
    Clear child empty (set mem t j e) root q :=
  (h.agree_set hS hp hw hq hpq e).clear hc

/-- After an entry that does not point to a table was written, `S` has no new tables. -/
theorem Tree.walk_of_walk_set (h : Tree child mem root S) (hS : PrefixClosed S) (hp : p ∈ S)
    (hw : walk child mem root p = some t) (he : p ++ [j] ∈ S → child e = none) (hq : q ∈ S) {t' : α}
    (hq' : walk child (set mem t j e) root q = some t') : walk child mem root q = some t' := by
  by_cases hpq : p ++ [j] <+: q
  · obtain ⟨r, rfl⟩ := hpq
    have hnone := he (hS _ r hq)
    rw [List.append_assoc, List.singleton_append, h.walk_set_below hS hp hw, hnone] at hq'
    cases hq'
  · rwa [h.walk_set_of_apart hS hp hw (hS.dropLast hq) hpq] at hq'

/-- Writing an entry that does not point to a table keeps the tree. -/
theorem Tree.set_leaf (h : Tree child mem root S) (hS : PrefixClosed S) (hp : p ∈ S)
    (hw : walk child mem root p = some t) (he : p ++ [j] ∈ S → child e = none) :
    Tree child (set mem t j e) root S where
  inj q₁ h₁ q₂ h₂ t' hw₁ hw₂ :=
    h.inj q₁ h₁ q₂ h₂ t' (h.walk_of_walk_set hS hp hw he h₁ hw₁)
      (h.walk_of_walk_set hS hp hw he h₂ hw₂)

end Updates

/-! ## Hanging in an empty table -/

/-- Clear the table `n` and let the entry `j` of `t` be `e`. -/
def link [DecidableEq α] [DecidableEq ι] (mem : α → ι → ε) (empty : ε) (n t : α) (j : ι) (e : ε) :
    α → ι → ε :=
  set (Function.update mem n fun _ => empty) t j e

/-- The hypotheses of the lemmas below: `t` is a table of the tree with an empty entry `j`, and `e`
points to a table `n` that is not part of the tree. -/
structure CanLink (child : ε → Option α) (mem : α → ι → ε) (root : α) (S : Set (List ι))
    (empty : ε) (p : List ι) (n t : α) (j : ι) (e : ε) : Prop where
  mem_S : p ++ [j] ∈ S
  walk_eq : walk child mem root p = some t
  entry_eq : mem t j = empty
  child_empty : child empty = none
  fresh : ∀ q ∈ S, walk child mem root q ≠ some n
  child_eq : child e = some n

private theorem CanLink.prefix_mem {child : ε → Option α} {mem : α → ι → ε} {root t n : α}
    {S : Set (List ι)} {p : List ι} {j : ι} {e empty : ε} (hl : CanLink child mem root S empty p n t j e)
    (hS : PrefixClosed S) : p ∈ S :=
  hS p [j] hl.mem_S

section Link

variable [DecidableEq α] {child : ε → Option α} {mem : α → ι → ε} {root t n : α}
  {S : Set (List ι)} {p q : List ι} {j : ι} {e empty : ε}

/-- Clearing a table that is not part of the tree. -/
private theorem agree_clear (empty : ε) (hS : PrefixClosed S)
    (hn : ∀ q ∈ S, walk child mem root q ≠ some n) (hq : q.dropLast ∈ S) :
    Agree child mem (Function.update mem n fun _ => empty) root q := by
  intro q₁ i r t' hq₁ hw₁
  have hne : t' ≠ n := by
    rintro rfl
    rw [hq₁, List.dropLast_append_cons] at hq
    exact hn q₁ (hS _ _ hq) hw₁
  rw [Function.update_of_ne hne]

private theorem tree_clear (h : Tree child mem root S) (hS : PrefixClosed S)
    (hn : ∀ q ∈ S, walk child mem root q ≠ some n) :
    Tree child (Function.update mem n fun _ => empty) root S where
  inj q₁ h₁ q₂ h₂ t' hw₁ hw₂ := by
    rw [(agree_clear empty hS hn (hS.dropLast h₁)).walk_eq] at hw₁
    rw [(agree_clear empty hS hn (hS.dropLast h₂)).walk_eq] at hw₂
    exact h.inj q₁ h₁ q₂ h₂ t' hw₁ hw₂

private theorem CanLink.walk_clear (hl : CanLink child mem root S empty p n t j e)
    (hS : PrefixClosed S) : walk child (Function.update mem n fun _ => empty) root p = some t := by
  rw [(agree_clear empty hS hl.fresh (hS.dropLast (hl.prefix_mem hS))).walk_eq, hl.walk_eq]

variable [DecidableEq ι]

/-- The new table is empty. -/
theorem CanLink.new_entry (hl : CanLink child mem root S empty p n t j e) (hS : PrefixClosed S)
    (i : ι) : link mem empty n t j e n i = empty := by
  have hne : n ≠ t := fun heq => hl.fresh p (hl.prefix_mem hS) (heq ▸ hl.walk_eq)
  rw [link, set_of_table_ne hne, Function.update_self]

variable (h : Tree child mem root S) (hS : PrefixClosed S)
  (hl : CanLink child mem root S empty p n t j e)

include h hS hl

/-- The new table. -/
theorem walk_link_self : walk child (link mem empty n t j e) root (p ++ [j]) = some n := by
  rw [link, (tree_clear h hS hl.fresh).walk_set_below hS (hl.prefix_mem hS) (hl.walk_clear hS), hl.child_eq]
  rfl

/-- Everything that does not go through the new table is as before. -/
theorem walk_link_of_apart (hq : q.dropLast ∈ S) (hpq : ¬ p ++ [j] <+: q) :
    walk child (link mem empty n t j e) root q = walk child mem root q := by
  rw [link, (tree_clear h hS hl.fresh).walk_set_of_apart hS (hl.prefix_mem hS) (hl.walk_clear hS) hq hpq,
    (agree_clear empty hS hl.fresh hq).walk_eq]

/-- The new table is empty, so no path leads on from it. -/
theorem walk_link_beyond (i : ι) (r : List ι) :
    walk child (link mem empty n t j e) root (p ++ j :: i :: r) = none := by
  have hsplit : p ++ j :: i :: r = (p ++ [j]) ++ i :: r := by simp
  rw [hsplit, walk_append, walk_link_self h hS hl, Option.bind_some, walk, hl.new_entry hS,
    hl.child_empty, Option.bind_none]

/-- A table of the new tree is the new table or one of the old tree. -/
theorem walk_of_walk_link (hq : q ∈ S) {t' : α}
    (hq' : walk child (link mem empty n t j e) root q = some t') :
    (q = p ++ [j] ∧ t' = n) ∨ (¬ p ++ [j] <+: q ∧ walk child mem root q = some t') := by
  by_cases hpq : p ++ [j] <+: q
  · obtain ⟨r, rfl⟩ := hpq
    rcases r with - | ⟨i, r⟩
    · left
      rw [List.append_nil] at hq' ⊢
      rw [walk_link_self h hS hl, Option.some.injEq] at hq'
      exact ⟨rfl, hq'.symm⟩
    · rw [List.append_assoc, List.singleton_append, walk_link_beyond h hS hl] at hq'
      cases hq'
  · rw [walk_link_of_apart h hS hl (hS.dropLast hq) hpq] at hq'
    exact Or.inr ⟨hpq, hq'⟩

/-- Hanging in a fresh table keeps the tree. -/
theorem Tree.link : Tree child (link mem empty n t j e) root S where
  inj q₁ h₁ q₂ h₂ t' hw₁ hw₂ := by
    rcases walk_of_walk_link h hS hl h₁ hw₁ with ⟨rfl, rfl⟩ | ⟨-, hold₁⟩
    · rcases walk_of_walk_link h hS hl h₂ hw₂ with ⟨rfl, -⟩ | ⟨-, hw₂⟩
      · rfl
      · exact absurd hw₂ (hl.fresh q₂ h₂)
    · rcases walk_of_walk_link h hS hl h₂ hw₂ with ⟨rfl, rfl⟩ | ⟨-, hold₂⟩
      · exact absurd hold₁ (hl.fresh q₁ h₁)
      · exact h.inj q₁ h₁ q₂ h₂ t' hold₁ hold₂

/-- An address below the new table is decided by an empty entry, as it was before. -/
theorem slot_link_below (i : ι) (r : List ι) :
    slot child (link mem empty n t j e) root (p ++ j :: i :: r) = some (r, empty) ∧
      slot child mem root (p ++ j :: i :: r) = some (i :: r, empty) := by
  have hsplit : p ++ j :: i :: r = (p ++ [j]) ++ i :: r := by simp
  constructor
  · rw [hsplit, slot_append (walk_link_self h hS hl) (List.cons_ne_nil i r)]
    cases r with
    | nil => rw [slot, hl.new_entry hS]
    | cons k r => rw [slot, hl.new_entry hS, hl.child_empty]
  · rw [slot_append hl.walk_eq (List.cons_ne_nil j _), slot, hl.entry_eq, hl.child_empty]

theorem slot_link_of_apart (hq : q.dropLast ∈ S) (hpq : ¬ p ++ [j] <+: q) :
    slot child (link mem empty n t j e) root q = slot child mem root q := by
  rw [link, (tree_clear h hS hl.fresh).slot_set_of_apart hS (hl.prefix_mem hS) (hl.walk_clear hS) hq hpq,
    (agree_clear empty hS hl.fresh hq).slot_eq]

/-- Hanging in an empty table changes no address. -/
theorem lookup_link [DecidableEq ε] (hq : q.dropLast ∈ S) (hqS : q ∉ S) :
    lookup child empty (link mem empty n t j e) root q = lookup child empty mem root q := by
  by_cases hpq : p ++ [j] <+: q
  · obtain ⟨r, rfl⟩ := hpq
    rcases r with - | ⟨i, r⟩
    · rw [List.append_nil] at hqS
      exact absurd hl.mem_S hqS
    · obtain ⟨hnew, hold⟩ := slot_link_below h hS hl i r
      rw [lookup, lookup, List.append_assoc, List.singleton_append, hnew, hold]
      simp [Option.filter]
  · rw [lookup, lookup, slot_link_of_apart h hS hl hq hpq]

/-- Clear paths stay clear. -/
theorem clear_link (hq : q.dropLast ∈ S) (hc : Clear child empty mem root q) :
    Clear child empty (link mem empty n t j e) root q := by
  by_cases hpq : p ++ [j] <+: q
  · obtain ⟨r, rfl⟩ := hpq
    refine clear_append (walk_link_self h hS hl) ?_
    cases r with
    | nil => trivial
    | cons i r => exact Or.inl (hl.new_entry hS i)
  · have hclear := (agree_clear empty hS hl.fresh hq).clear hc
    exact ((tree_clear h hS hl.fresh).agree_set hS (hl.prefix_mem hS) (hl.walk_clear hS) hq hpq
      e).clear hclear

/-- Tables stay where they are. -/
theorem walk_link_of_walk (hq : q ∈ S) {t' : α} (hw : walk child mem root q = some t') :
    walk child (link mem empty n t j e) root q = some t' := by
  have hpq : ¬ p ++ [j] <+: q := by
    rintro ⟨r, rfl⟩
    rw [List.append_assoc, List.singleton_append, walk_append, hl.walk_eq, Option.bind_some, walk,
      hl.entry_eq, hl.child_empty] at hw
    cases hw
  rw [walk_link_of_apart h hS hl (hS.dropLast hq) hpq, hw]

end Link

end Radix
