import Ilobilix.Memory.Pagemap.Model

/-!
# Walks through the page tables

`getlvl` and `getpte` as operations on a radix tree. `Wf` is the invariant of the tables: none of them
is reached along two paths, and all of them are the root or come from `new_table`. As long as the path
to an entry is clear, that is, as long as it meets nothing but tables and empty entries, `getpte` only
`Extends` the tree by empty tables, which changes the translation of no address.

The invariant is about the paths whose first index satisfies a predicate, so that it can be about the
lower half alone.
-/

namespace Ilobilix.Vmm

/-! ## Paths -/

/-- The index of an address into the table at depth `i`. -/
def idx (vaddr i : ℕ) : ℕ := (vaddr >>> (39 - 9 * i)) &&& 0b111111111

/-- The first `i` indices of an address. -/
def pathTo (vaddr i : ℕ) : List ℕ := (List.range i).map (idx vaddr)

theorem pathTo_succ (vaddr i : ℕ) : pathTo vaddr (i + 1) = pathTo vaddr i ++ [idx vaddr i] := by
  rw [pathTo, List.range_succ, List.map_append, List.map_singleton, ← pathTo]

@[simp] theorem length_pathTo (vaddr i : ℕ) : (pathTo vaddr i).length = i := by
  rw [pathTo, List.length_map, List.length_range]

theorem pathTo_isPrefixOf (vaddr : ℕ) {i j : ℕ} (h : i ≤ j) : pathTo vaddr i <+: pathTo vaddr j := by
  induction j, h using Nat.le_induction with
  | base => exact List.prefix_rfl
  | succ j _ ih =>
      rw [pathTo_succ]
      exact ih.trans (List.prefix_append _ _)

theorem idx_lt (v i : ℕ) : idx v i < 512 := by
  rw [idx, show 0b111111111 = 2 ^ 9 - 1 from rfl, Nat.and_two_pow_sub_one_eq_mod]
  exact Nat.mod_lt _ (by decide)

theorem lt_of_mem_pathTo {v n : ℕ} : ∀ i ∈ pathTo v n, i < 512 := by
  intro i hi
  obtain ⟨j, -, rfl⟩ := List.mem_map.mp hi
  exact idx_lt v j

/-- The depth of the entry of a page: `retidx` of `getpte`. -/
def depth (psize : PageSize) : ℕ := levels - psize.toNat - 1

/-- The paths to tables whose first index satisfies `P`. -/
def paths (P : ℕ → Prop) : Set (List ℕ) := {p | p.length < levels ∧ ∀ i ∈ p.head?, P i}

theorem paths_prefixClosed (P : ℕ → Prop) : Radix.PrefixClosed (paths P) := by
  rintro p q ⟨hlen, hhead⟩
  rw [List.length_append] at hlen
  refine ⟨by omega, fun i hi => hhead i ?_⟩
  cases p with
  | nil => cases hi
  | cons a p => exact hi

theorem pathTo_mem_paths {P : ℕ → Prop} {vaddr : ℕ} (h : P (idx vaddr 0)) {i : ℕ} (hi : i < levels) :
    pathTo vaddr i ∈ paths P := by
  refine ⟨by rwa [length_pathTo], ?_⟩
  cases i with
  | zero => simp [pathTo]
  | succ i => simp [pathTo, List.range_succ_eq_map, h]

/-! ## The tables of a page map -/

/-- The table that an entry above the last level points to. -/
def tableOf (value : BitVec 64) : Option ℕ :=
  if isPresent value && isCanonical (getaddr value) && !isLeaf value then some (getaddr value)
  else none

@[simp] theorem tableOf_zero : tableOf 0#64 = none := rfl

theorem tableOf_eq_some {value : BitVec 64} {t : ℕ} (h : tableOf value = some t) :
    (getflags value validTableFlags && isCanonical (getaddr value)) = true ∧ getaddr value = t ∧
      isLeaf value = false := by
  rw [tableOf] at h
  split at h
  · rename_i hcond
    rw [Bool.and_eq_true, Bool.not_eq_true'] at hcond
    rw [getflags_valid]
    exact ⟨hcond.1, Option.some.inj h, hcond.2⟩
  · cases h

/-- What is assumed of `new_table`: page-aligned pages that the direct map reaches, none of them twice
and none of them the root. -/
structure Pagemap.FreshTables (pm : Pagemap) : Prop where
  aligned : ∀ k t, pm.newTable k = some t → 0x1000 ∣ t
  lt : ∀ k t, pm.newTable k = some t → t < 2 ^ 47
  injective : ∀ j k t, pm.newTable j = some t → pm.newTable k = some t → j = k
  ne_table : ∀ k, pm.newTable k ≠ some pm.table

/-- The root and the first `n` tables. -/
def Pagemap.tables (pm : Pagemap) (n : ℕ) : Set ℕ :=
  {t | t = pm.table ∨ ∃ k < n, pm.newTable k = some t}

theorem Pagemap.tables_mono (pm : Pagemap) {m n : ℕ} (h : m ≤ n) : pm.tables m ⊆ pm.tables n := by
  rintro t (rfl | ⟨k, hk, ht⟩)
  · exact Or.inl rfl
  · exact Or.inr ⟨k, hk.trans_le h, ht⟩

theorem Pagemap.FreshTables.not_mem {pm : Pagemap} (h : pm.FreshTables) {n t : ℕ}
    (ht : pm.newTable n = some t) : t ∉ pm.tables n := by
  rintro (rfl | ⟨k, hk, hk'⟩)
  · exact h.ne_table n ht
  · exact hk.ne (h.injective k n t hk' ht)

/-- The entry that `getlvl` writes points to the new table. -/
theorem Pagemap.FreshTables.tableOf_new {pm : Pagemap} (h : pm.FreshTables) {n t : ℕ}
    (ht : pm.newTable n = some t) :
    tableOf (setflags (setaddr 0#64 t) newTableFlags) = some t := by
  have hlt := h.lt n t ht
  have hflags : newTableFlags &&& paMask = 0#64 := rfl
  have haddr := getaddr_mk (h.aligned n t ht) (hlt.trans (by decide)) hflags
  have hpres := getLsbD_mk t newTableFlags (i := 0) rfl
  have hleaf := getLsbD_mk t newTableFlags (i := 7) rfl
  have hcanon : isCanonical t = true := by
    simp only [isCanonical, Bool.or_eq_true, decide_eq_true_eq]
    omega
  rw [tableOf, isPresent, isLeaf, haddr, hpres, hleaf, hcanon]
  rfl

section

variable (pm : Pagemap) (st : Tables)

/-- The table along a path. -/
def Pagemap.walk (p : List ℕ) : Option ℕ := Radix.walk tableOf st.mem pm.table p

/-- The non-empty entry that decides about an address, with the indices below it. -/
def Pagemap.lookup (vaddr : ℕ) : Option (List ℕ × BitVec 64) :=
  Radix.lookup tableOf 0#64 st.mem pm.table (pathTo vaddr levels)

/-- There is nothing but tables and empty entries above depth `d` on the way to an address. -/
def Pagemap.Clear (vaddr d : ℕ) : Prop :=
  Radix.Clear tableOf 0#64 st.mem pm.table (pathTo vaddr d)

/-- The invariant of the tables. -/
structure Pagemap.Wf (P : ℕ → Prop) : Prop where
  tree : Radix.Tree tableOf st.mem pm.table (paths P)
  owned : ∀ p ∈ paths P, ∀ t, pm.walk st p = some t → t ∈ pm.tables st.ntables

end

/-- The histories record only entries that point to tables, and only tables. -/
structure Pagemap.Logs (pm : Pagemap) (st st' : Tables) : Prop where
  ntables_le : st.ntables ≤ st'.ntables
  followed : ∀ e ∈ st'.followed, e ∈ st.followed ∨ isLeaf e = false
  written : ∀ t ∈ st'.written, t ∈ st.written ∨ t ∈ pm.tables st'.ntables

theorem Pagemap.Logs.refl (pm : Pagemap) (st : Tables) : pm.Logs st st :=
  ⟨le_rfl, fun _ => Or.inl, fun _ => Or.inl⟩

theorem Pagemap.Logs.trans {pm : Pagemap} {s₁ s₂ s₃ : Tables} (h₁ : pm.Logs s₁ s₂)
    (h₂ : pm.Logs s₂ s₃) : pm.Logs s₁ s₃ where
  ntables_le := h₁.ntables_le.trans h₂.ntables_le
  followed e he := (h₂.followed e he).elim (h₁.followed e) Or.inr
  written t ht := (h₂.written t ht).elim
    (fun h => (h₁.written t h).imp_right fun h => pm.tables_mono h₂.ntables_le h) Or.inr

/-- The tables along the paths are the ones there were and the new ones of `new_table`. -/
structure Pagemap.Grows (pm : Pagemap) (P : ℕ → Prop) (st st' : Tables) : Prop where
  ntables_le : st.ntables ≤ st'.ntables
  walk : ∀ p ∈ paths P, ∀ t, pm.walk st p = some t → pm.walk st' p = some t
  back : ∀ p ∈ paths P, ∀ t, pm.walk st' p = some t → pm.walk st p = some t ∨
    ∃ k, st.ntables ≤ k ∧ k < st'.ntables ∧ pm.newTable k = some t
  reached : ∀ k, st.ntables ≤ k → k < st'.ntables → ∀ t, pm.newTable k = some t →
    ∃ p ∈ paths P, (∀ i ∈ p, i < 512) ∧ pm.walk st' p = some t

/-- No table comes or goes. -/
theorem Pagemap.Grows.of_walk {pm : Pagemap} {P : ℕ → Prop} {st st' : Tables}
    (hn : st'.ntables = st.ntables) (h : ∀ p ∈ paths P, pm.walk st' p = pm.walk st p) :
    pm.Grows P st st' :=
  ⟨hn.ge, fun p hp _ ht => (h p hp).trans ht, fun p hp _ ht => Or.inl ((h p hp).symm.trans ht),
    fun _ hk hk' => absurd (hn ▸ hk') hk.not_gt⟩

theorem Pagemap.Grows.trans {pm : Pagemap} {P : ℕ → Prop} {s₁ s₂ s₃ : Tables}
    (h₁ : pm.Grows P s₁ s₂) (h₂ : pm.Grows P s₂ s₃) : pm.Grows P s₁ s₃ where
  ntables_le := h₁.ntables_le.trans h₂.ntables_le
  walk p hp t ht := h₂.walk p hp t (h₁.walk p hp t ht)
  back p hp t ht := by
    rcases h₂.back p hp t ht with ht | ⟨k, hk, hk', hkt⟩
    · refine (h₁.back p hp t ht).imp_right ?_
      rintro ⟨k, hk, hk', hkt⟩
      exact ⟨k, hk, hk'.trans_le h₂.ntables_le, hkt⟩
    · exact Or.inr ⟨k, h₁.ntables_le.trans hk, hk', hkt⟩
  reached k hk hk' t hkt := by
    by_cases hmid : k < s₂.ntables
    · obtain ⟨p, hp, hlt, ht⟩ := h₁.reached k hk hmid t hkt
      exact ⟨p, hp, hlt, h₂.walk p hp t ht⟩
    · exact h₂.reached k (not_lt.mp hmid) hk' t hkt

/-- The second tree has the tables of the first one and further empty ones. -/
structure Pagemap.Extends (pm : Pagemap) (P : ℕ → Prop) (st st' : Tables) : Prop where
  wf : pm.Wf st' P
  grows : pm.Grows P st st'
  lookup : ∀ v, P (idx v 0) → pm.lookup st' v = pm.lookup st v
  clear : ∀ v d, P (idx v 0) → d < levels → pm.Clear st v d → pm.Clear st' v d
  logs : pm.Logs st st'

theorem Pagemap.Extends.refl {pm : Pagemap} {P : ℕ → Prop} {st : Tables} (h : pm.Wf st P) :
    pm.Extends P st st :=
  ⟨h, .of_walk rfl fun _ _ => rfl, fun _ _ => rfl, fun _ _ _ _ => id, .refl pm st⟩

theorem Pagemap.Extends.walk {pm : Pagemap} {P : ℕ → Prop} {st st' : Tables}
    (h : pm.Extends P st st') : ∀ p ∈ paths P, ∀ t, pm.walk st p = some t → pm.walk st' p = some t :=
  h.grows.walk

theorem Pagemap.Extends.trans {pm : Pagemap} {P : ℕ → Prop} {s₁ s₂ s₃ : Tables}
    (h₁ : pm.Extends P s₁ s₂) (h₂ : pm.Extends P s₂ s₃) : pm.Extends P s₁ s₃ where
  wf := h₂.wf
  grows := h₁.grows.trans h₂.grows
  lookup v hv := (h₂.lookup v hv).trans (h₁.lookup v hv)
  clear v d hv hd hc := h₂.clear v d hv hd (h₁.clear v d hv hd hc)
  logs := h₁.logs.trans h₂.logs

/-! ## `getlvl` -/

section Getlvl

variable {pm : Pagemap} {P : ℕ → Prop} {st : Tables} {p : List ℕ} {t j : ℕ}

theorem pathTo_levels_not_mem (P : ℕ → Prop) (v : ℕ) : pathTo v levels ∉ paths P := by
  rintro ⟨hlen, -⟩
  rw [length_pathTo] at hlen
  exact lt_irrefl _ hlen

theorem pathTo_dropLast (v i : ℕ) : (pathTo v (i + 1)).dropLast = pathTo v i := by
  rw [pathTo_succ, List.dropLast_concat]

/-- Recording that an entry was followed. -/
theorem Pagemap.Wf.follow (h : pm.Wf st P) {value : BitVec 64} (hleaf : isLeaf value = false) :
    pm.Extends P st (st.follow value) := by
  refine ⟨⟨h.tree, h.owned⟩, .of_walk rfl fun _ _ => rfl, fun _ _ => rfl, fun _ _ _ _ => id, le_rfl,
    ?_, fun _ => Or.inl⟩
  intro e he
  rcases List.mem_cons.mp he with rfl | he
  · exact Or.inr hleaf
  · exact Or.inl he

/-- An entry that points to a table is followed. -/
theorem Pagemap.getlvl_of_table {t' : ℕ} (allocate : Bool) (h : tableOf (st.mem t j) = some t') :
    pm.getlvl t j allocate st = .ok (st.follow (st.mem t j), some t') := by
  obtain ⟨hcond, haddr, -⟩ := tableOf_eq_some h
  rw [Pagemap.getlvl, if_pos hcond, haddr]

/-- `getlvl` does not follow an empty entry. -/
theorem Pagemap.getlvl_of_empty (pm : Pagemap) (allocate : Bool) (h : st.mem t j = 0#64) :
    pm.getlvl t j allocate st =
      if allocate = false then .ok (st, none)
      else match pm.newTable st.ntables with
        | none => .error .panic
        | some n => .ok ((st.clearTable n).write t j (setflags (setaddr 0#64 n) newTableFlags),
            some n) := by
  have hcond : ¬ (getflags 0#64 validTableFlags && isCanonical (getaddr 0#64)) = true := by decide
  rw [Pagemap.getlvl, h]
  exact if_neg hcond

/-- In an empty entry `getlvl` hangs in a new table. -/
theorem Pagemap.Wf.link (hpm : pm.FreshTables) (h : pm.Wf st P) (hp : p ++ [j] ∈ paths P)
    (hlt : ∀ i ∈ p ++ [j], i < 512) (hw : pm.walk st p = some t) (hempty : st.mem t j = 0#64) {n : ℕ}
    (hn : pm.newTable st.ntables = some n) :
    pm.Extends P st ((st.clearTable n).write t j (setflags (setaddr 0#64 n) newTableFlags)) ∧
    pm.walk ((st.clearTable n).write t j (setflags (setaddr 0#64 n) newTableFlags)) (p ++ [j]) =
        some n := by
  have hS := paths_prefixClosed P
  have hfresh : ∀ q ∈ paths P, Radix.walk tableOf st.mem pm.table q ≠ some n :=
    fun q hq hwalk => hpm.not_mem hn (h.owned q hq _ hwalk)
  have hl : Radix.CanLink tableOf st.mem pm.table (paths P) 0#64 p n t j
      (setflags (setaddr 0#64 n) newTableFlags) :=
    ⟨hp, hw, hempty, tableOf_zero, hfresh, hpm.tableOf_new hn⟩
  have hmono := pm.tables_mono (Nat.le_succ st.ntables)
  have hself := Radix.walk_link_self h.tree hS hl
  refine ⟨⟨⟨h.tree.link hS hl, ?_⟩, ⟨Nat.le_succ _, ?_, ?_, ?_⟩, ?_, ?_, ?_⟩, hself⟩
  · intro q hq t' hq'
    rcases Radix.walk_of_walk_link h.tree hS hl hq hq' with ⟨-, rfl⟩ | ⟨-, hold⟩
    · exact Or.inr ⟨st.ntables, Nat.lt_succ_self _, hn⟩
    · exact hmono (h.owned q hq t' hold)
  · exact fun q hq t' hq' => Radix.walk_link_of_walk h.tree hS hl hq hq'
  · intro q hq t' hq'
    rcases Radix.walk_of_walk_link h.tree hS hl hq hq' with ⟨-, rfl⟩ | ⟨-, hold⟩
    · exact Or.inr ⟨st.ntables, le_rfl, Nat.lt_succ_self _, hn⟩
    · exact Or.inl hold
  · intro k hk hk' t' ht'
    obtain rfl := Nat.le_antisymm (Nat.le_of_lt_succ hk') hk
    obtain rfl := Option.some.inj (hn.symm.trans ht')
    exact ⟨p ++ [j], hp, hlt, hself⟩
  · intro v hv
    refine Radix.lookup_link h.tree hS hl ?_ (pathTo_levels_not_mem P v)
    exact pathTo_dropLast v 3 ▸ pathTo_mem_paths hv (by decide)
  · intro v d hv hd hc
    refine Radix.clear_link h.tree hS hl ?_ hc
    exact hS.dropLast (pathTo_mem_paths hv hd)
  · refine ⟨Nat.le_succ _, fun _ => Or.inl, fun t' ht' => ?_⟩
    rcases List.mem_cons.mp ht' with rfl | ht'
    · exact Or.inr (hmono (h.owned p (hS p [j] hp) _ hw))
    · exact Or.inl ht'

end Getlvl

/-! ## `getpte` -/

section Getpte

variable {pm : Pagemap} {P : ℕ → Prop} {st : Tables} {v d i t : ℕ}

/-- On a clear path the entry at depth `i` is empty or points to a table. -/
theorem Pagemap.Clear.entry (hc : pm.Clear st v d) (hi : i < d)
    (hw : pm.walk st (pathTo v i) = some t) :
    st.mem t (idx v i) = 0#64 ∨ ∃ t', tableOf (st.mem t (idx v i)) = some t' := by
  obtain ⟨r, hr⟩ := pathTo_isPrefixOf v (Nat.succ_le_of_lt hi)
  rw [pathTo_succ, List.append_assoc, List.singleton_append] at hr
  rw [Pagemap.Clear, ← hr] at hc
  rcases Radix.clear_of_append tableOf_zero hw hc with hempty | ⟨t', ht', -⟩
  · exact Or.inl hempty
  · exact Or.inr ⟨t', ht'⟩

/-- One level of `getpte`. -/
theorem Pagemap.getpteFrom_succ {left : ℕ} {allocate : Bool} {pml shift : ℕ} (hne : i ≠ d)
    (hshift : shift = 39 - 9 * i) :
    pm.getpteFrom v d allocate (left + 1) pml i shift st =
      match pm.getlvl pml (idx v i) allocate st with
      | .error stop => .error stop
      | .ok (st, none) => .ok (st, .error .invalidEntry)
      | .ok (st, some pml) => pm.getpteFrom v d allocate left pml (i + 1) (39 - 9 * (i + 1)) st := by
  have hnext : 39 - 9 * i - 9 = 39 - 9 * (i + 1) := by omega
  rw [Pagemap.getpteFrom, hshift, ← hnext, idx]
  exact if_neg hne

theorem Pagemap.getpteFrom_self {left : ℕ} {allocate : Bool} {pml shift : ℕ}
    (hshift : shift = 39 - 9 * i) :
    pm.getpteFrom v i allocate (left + 1) pml i shift st = .ok (st, .ok (pml, idx v i)) := by
  rw [Pagemap.getpteFrom, if_pos rfl, hshift, ← idx]

/-- `getpte` with allocation reaches the entry, over new empty tables where there were none, or runs
out of memory. -/
theorem Pagemap.Wf.getpteFrom_alloc (hpm : pm.FreshTables) (hv : P (idx v 0)) (hd : d < levels)
    {left : ℕ} : ∀ {st i t shift}, pm.Wf st P → pm.Clear st v d → i ≤ d → i + left = levels →
      shift = 39 - 9 * i → pm.walk st (pathTo v i) = some t →
      (∃ st' t', pm.getpteFrom v d true left t i shift st = .ok (st', .ok (t', idx v d)) ∧
        pm.Extends P st st' ∧ pm.walk st' (pathTo v d) = some t') ∨
      pm.getpteFrom v d true left t i shift st = .error .panic := by
  induction left with
  | zero => exact fun {st i t shift} _ _ hi hleft => by omega
  | succ left ih =>
      intro st i t shift h hc hi hleft hshift hw
      rcases hi.eq_or_lt with rfl | hlt
      · exact Or.inl ⟨st, t, getpteFrom_self hshift, .refl h, hw⟩
      · -- one level down the tables are extended, and the rest of the walk extends them further
        have hnext : ∀ st' t', pm.getlvl t (idx v i) true st = .ok (st', some t') →
            pm.Extends P st st' → pm.walk st' (pathTo v (i + 1)) = some t' →
            (∃ st' t', pm.getpteFrom v d true (left + 1) t i shift st =
              .ok (st', .ok (t', idx v d)) ∧ pm.Extends P st st' ∧
              pm.walk st' (pathTo v d) = some t') ∨
            pm.getpteFrom v d true (left + 1) t i shift st = .error .panic := by
          intro st' t' hlvl hext hw'
          rw [getpteFrom_succ hlt.ne hshift, hlvl]
          refine (ih hext.wf (hext.clear v d hv hd hc) hlt (by omega) rfl hw').imp_left ?_
          rintro ⟨st'', t'', heq, hext', hw''⟩
          exact ⟨st'', t'', heq, hext.trans hext', hw''⟩
        have hpath : pathTo v i ++ [idx v i] ∈ paths P :=
          pathTo_succ v i ▸ pathTo_mem_paths hv (by omega)
        rcases hc.entry hlt hw with hempty | ⟨t', ht'⟩
        · have hlvl := pm.getlvl_of_empty true hempty
          cases hn : pm.newTable st.ntables with
          | none =>
              rw [if_neg (by decide), hn] at hlvl
              exact Or.inr (by rw [getpteFrom_succ hlt.ne hshift, hlvl])
          | some n =>
              obtain ⟨hext, hw'⟩ := h.link hpm hpath (pathTo_succ v i ▸ lt_of_mem_pathTo) hw hempty hn
              rw [if_neg (by decide), hn] at hlvl
              exact hnext _ _ hlvl hext (pathTo_succ v i ▸ hw')
        · refine hnext _ _ (getlvl_of_table true ht') (h.follow (tableOf_eq_some ht').2.2) ?_
          rw [pathTo_succ]
          exact (Radix.walk_concat hw _).trans ht'

/-- `getpte` without allocation reaches the entry when its table exists; it changes no table. -/
theorem Pagemap.Wf.getpteFrom_walk (hd : d < levels) {left : ℕ} :
    ∀ {st i t shift}, pm.Wf st P → pm.Clear st v d → i ≤ d → i + left = levels →
      shift = 39 - 9 * i → pm.walk st (pathTo v i) = some t →
      ∃ st', pm.Extends P st st' ∧ st'.mem = st.mem ∧
        ((∃ t', pm.walk st (pathTo v d) = some t' ∧
          pm.getpteFrom v d false left t i shift st = .ok (st', .ok (t', idx v d))) ∨
        (pm.walk st (pathTo v d) = none ∧
          pm.getpteFrom v d false left t i shift st = .ok (st', .error .invalidEntry))) := by
  induction left with
  | zero => exact fun {st i t shift} _ _ hi hleft => by omega
  | succ left ih =>
      intro st i t shift h hc hi hleft hshift hw
      rcases hi.eq_or_lt with rfl | hlt
      · exact ⟨st, .refl h, rfl, Or.inl ⟨t, hw, getpteFrom_self hshift⟩⟩
      · rw [getpteFrom_succ hlt.ne hshift]
        rcases hc.entry hlt hw with hempty | ⟨t', ht'⟩
        · refine ⟨st, .refl h, rfl, Or.inr ⟨?_, by rw [pm.getlvl_of_empty false hempty]; rfl⟩⟩
          obtain ⟨r, hr⟩ := pathTo_isPrefixOf v (Nat.succ_le_of_lt hlt)
          rw [pathTo_succ, List.append_assoc, List.singleton_append] at hr
          rw [Pagemap.walk, ← hr, Radix.walk_append, ← Pagemap.walk, hw, Option.bind_some,
            Radix.walk, hempty]
          rfl
        · have hext := h.follow (tableOf_eq_some ht').2.2
          have hw' : pm.walk (st.follow (st.mem t (idx v i))) (pathTo v (i + 1)) = some t' := by
            rw [pathTo_succ]
            exact (Radix.walk_concat hw _).trans ht'
          obtain ⟨st', hext', hmem, hres⟩ := ih hext.wf hc hlt (by omega) rfl hw'
          rw [getlvl_of_table false ht']
          exact ⟨st', hext.trans hext', hmem, hres⟩

/-- `getpte` with allocation. -/
theorem Pagemap.Wf.getpte_alloc (hpm : pm.FreshTables) (h : pm.Wf st P) (hv : P (idx v 0))
    (psize : PageSize) (hc : pm.Clear st v (depth psize)) :
    (∃ st' t, pm.getpte v psize true st = .ok (st', .ok (t, idx v (depth psize))) ∧
      pm.Extends P st st' ∧ pm.walk st' (pathTo v (depth psize)) = some t) ∨
    pm.getpte v psize true st = .error .panic := by
  have hd : depth psize < levels := by cases psize <;> decide
  exact Wf.getpteFrom_alloc hpm hv hd h hc (Nat.zero_le _) rfl rfl rfl

/-- `getpte` without allocation. -/
theorem Pagemap.Wf.getpte_walk (h : pm.Wf st P) (psize : PageSize)
    (hc : pm.Clear st v (depth psize)) :
    ∃ st', pm.Extends P st st' ∧ st'.mem = st.mem ∧
      ((∃ t, pm.walk st (pathTo v (depth psize)) = some t ∧
        pm.getpte v psize false st = .ok (st', .ok (t, idx v (depth psize)))) ∨
      (pm.walk st (pathTo v (depth psize)) = none ∧
        pm.getpte v psize false st = .ok (st', .error .invalidEntry))) := by
  have hd : depth psize < levels := by cases psize <;> decide
  exact Wf.getpteFrom_walk hd h hc (Nat.zero_le _) rfl rfl rfl

end Getpte

end Ilobilix.Vmm
