import Ilobilix.Memory.Pagemap.Refinement

/-!
# The end of a page map

`~pagemap` goes down the tables of the lower half with `getlvl`, which cannot tell a table from a page,
and stops at the level where only pages are left. A page given back with `free_table` belongs to the
physical allocator, which may write to it at once.

In a run with small pages the tables of the lower half are those that `getlvl` made, each of them once,
so these and the root are what `~pagemap` gives back: `destroy_frees_own_tables`.
-/

namespace Ilobilix.Vmm

/-! ## The destructor -/

/-- The tables while they are taken down, with the pages given to `free_table`, latest first. -/
structure Teardown where
  tables : Tables
  freed : List ℕ

/-- `free_table`. Afterwards the pages given back hold what the allocator has left in them. -/
def Teardown.freeTable (scribble : List ℕ → ℕ → ℕ → BitVec 64) (s : Teardown) (t : ℕ) : Teardown :=
  let freed := t :: s.freed
  ⟨{ s.tables with mem := fun x => if x ∈ freed then scribble freed x else s.tables.mem x }, freed⟩

/-- The recursive lambda of `~pagemap`. -/
def Pagemap.destroyFrom (pm : Pagemap) (scribble : List ℕ → ℕ → ℕ → BitVec 64) :
    (level ptr start stop : ℕ) → Teardown → Except Stop Teardown
  | 0, _, _, _, s => .ok s
  | level + 1, ptr, start, stop, s => do
      let s ← (List.range' start (stop - start)).foldlM (fun s i =>
        match pm.getlvl ptr i false s.tables with
        | .error stop => .error stop
        | .ok (st, none) => .ok ⟨st, s.freed⟩
        | .ok (st, some lvl) => pm.destroyFrom scribble level lvl 0 512 ⟨st, s.freed⟩) s
      return s.freeTable scribble ptr

/-- `~pagemap`. -/
def Pagemap.destroy (pm : Pagemap) (scribble : List ℕ → ℕ → ℕ → BitVec 64) (st : Tables) :
    Except Stop Teardown :=
  pm.destroyFrom scribble 4 pm.table 0 256 ⟨st, []⟩

/-- The constructor of a page map, once there is the one of the kernel: a cleared root with the upper
half of the kernel's root. -/
def Pagemap.constructShared (pm : Pagemap) (ktable : ℕ) (st : Tables) : Tables :=
  { st with mem := Function.update st.mem pm.table fun j =>
      if 256 ≤ j ∧ j < 512 then st.mem ktable j else 0#64 }

/-- What a default constructor leaves: of the kernel page map, or of one that shares its upper half. -/
def Pagemap.Constructed (pm : Pagemap) (st : Tables) : Prop :=
  (∃ st₀, (∀ j < 512, st₀.mem pm.table j = 0#64) ∧ pm.construct st₀ = .ok st) ∨
    ∃ ktable st₀, st = pm.constructShared ktable st₀

/-- Addresses of the lower half, aligned or not. -/
def SmallOp.Lower : SmallOp → Prop
  | .map vaddr _ length _ _ => vaddr + length ≤ 2 ^ 47
  | .unmap vaddr length => vaddr + length ≤ 2 ^ 47
  | .protect vaddr length _ _ => vaddr + length ≤ 2 ^ 47
  | .translate vaddr => vaddr < 2 ^ 47

/-- The calls with small pages on lower-half addresses. -/
def Pagemap.lowerSystem (pm : Pagemap) :
    TransitionSystem Tables ((op : SmallOp) × Except Error op.Result) where
  init := pm.Constructed
  step st l st' := l.1.Lower ∧ pm.Call st l.1 l.2 st'

/-- A page that `new_table` has returned between two states. -/
def Pagemap.Allocated (pm : Pagemap) (st₀ st : Tables) (t : ℕ) : Prop :=
  ∃ k, st₀.ntables ≤ k ∧ k < st.ntables ∧ pm.newTable k = some t

/-! ## The recursion -/

/-- What `getlvl` takes for a table. -/
def followed (value : BitVec 64) : Option ℕ :=
  if getflags value validTableFlags && isCanonical (getaddr value) then some (getaddr value) else none

section Recursion

variable {pm : Pagemap} {scribble : List ℕ → ℕ → ℕ → BitVec 64} {s : Teardown} {t : ℕ}

theorem Pagemap.getlvl_followed (pm : Pagemap) (t j : ℕ) (st : Tables) :
    pm.getlvl t j false st = match followed (st.mem t j) with
      | some t' => .ok (st.follow (st.mem t j), some t')
      | none => .ok (st, none) := by
  rw [Pagemap.getlvl, followed]
  dsimp only
  split <;> rfl

/-- The tables from `t` on, as the recursion finds them. -/
def Teardown.below (s : Teardown) (level : ℕ) (is : List ℕ) (t : ℕ) : List ℕ :=
  Radix.tables followed s.tables.mem (List.range 512) level is t

/-- The tables `l` are taken down, last one last, and no other page is touched. -/
structure Teardown.TakenDown (s s' : Teardown) (l : List ℕ) : Prop where
  freed : s'.freed = l.reverse ++ s.freed
  mem : ∀ x, x ∉ l → x ∉ s.freed → s'.tables.mem x = s.tables.mem x

theorem Teardown.TakenDown.trans {s₁ s₂ s₃ : Teardown} {l₁ l₂ : List ℕ} (h₁ : s₁.TakenDown s₂ l₁)
    (h₂ : s₂.TakenDown s₃ l₂) : s₁.TakenDown s₃ (l₁ ++ l₂) where
  freed := by rw [h₂.freed, h₁.freed, List.reverse_append, List.append_assoc]
  mem x hx hs := by
    rw [List.mem_append, not_or] at hx
    have hfreed : x ∉ s₂.freed := by
      rw [h₁.freed, List.mem_append, List.mem_reverse]
      exact not_or.mpr ⟨hx.1, hs⟩
    rw [h₂.mem x hx.2 hfreed, h₁.mem x hx.1 hs]

theorem Teardown.takenDown_freeTable (scribble : List ℕ → ℕ → ℕ → BitVec 64) (s : Teardown) (t : ℕ) :
    s.TakenDown (s.freeTable scribble t) [t] where
  freed := rfl
  mem _ hx hs := if_neg (List.not_mem_cons_of_ne_of_not_mem (List.ne_of_not_mem_cons hx) hs)

/-- When no table is met twice, the recursion takes down all of them. What the allocator does to the
pages that it has got does not matter, because none of them is read again. -/
theorem Pagemap.destroyFrom_spec (pm : Pagemap) (scribble : List ℕ → ℕ → ℕ → BitVec 64) {level : ℕ} :
    ∀ {s t} start stop, (s.below level (List.range' start (stop - start)) t).Nodup →
      (∀ x ∈ s.below level (List.range' start (stop - start)) t, x ∉ s.freed) →
      ∃ s', pm.destroyFrom scribble level t start stop s = .ok s' ∧
        s.TakenDown s' (s.below level (List.range' start (stop - start)) t) := by
  induction level with
  | zero => exact fun {s t} _ _ _ _ => ⟨s, rfl, rfl, fun _ _ _ => rfl⟩
  | succ level ih =>
      intro s t start stop hnodup hfresh
      rw [Pagemap.destroyFrom]
      generalize List.range' start (stop - start) = is at hnodup hfresh ⊢
      induction is generalizing s with
      | nil => exact ⟨_, rfl, s.takenDown_freeTable scribble t⟩
      | cons i is ihis =>
          rw [List.foldlM_cons, pm.getlvl_followed]
          have hbelow : s.below (level + 1) (i :: is) t =
              (followed (s.tables.mem t i)).elim [] (s.below level (List.range 512)) ++
                s.below (level + 1) is t := by
            simp only [Teardown.below, Radix.tables, List.flatMap_cons, List.append_assoc]
            rfl
          rw [hbelow] at hnodup hfresh ⊢
          cases hi : followed (s.tables.mem t i) with
          | none =>
              rw [hi, Option.elim_none, List.nil_append] at hnodup hfresh
              exact ihis hnodup hfresh
          | some t' =>
              rw [hi, Option.elim_some] at hnodup hfresh
              obtain ⟨hnodup', hrest, hdisj⟩ := List.nodup_append.mp hnodup
              -- the tables below the entry are taken down first
              have hrange : List.range' 0 (512 - 0) = List.range 512 := List.range_eq_range'.symm
              obtain ⟨s₂, hrun, htaken⟩ := @ih ⟨s.tables.follow (s.tables.mem t i), s.freed⟩ t' 0 512
                (by rw [hrange]; exact hnodup')
                (by rw [hrange]; exact fun x hx => hfresh x (List.mem_append_left _ hx))
              rw [hrange] at htaken
              replace htaken : s.TakenDown s₂ (s.below level (List.range 512) t') :=
                ⟨htaken.freed, htaken.mem⟩
              have hnew : ∀ x ∈ s.below (level + 1) is t, x ∉ s₂.freed := by
                intro x hx
                rw [htaken.freed, List.mem_append, List.mem_reverse, not_or]
                exact ⟨fun hx' => hdisj x hx' x hx rfl, hfresh x (List.mem_append_right _ hx)⟩
              -- and the ones behind it are as before
              have hsame : s₂.below (level + 1) is t = s.below (level + 1) is t :=
                Radix.tables_congr fun x hx => htaken.mem x (fun hx' => hdisj x hx' x hx rfl)
                  (hfresh x (List.mem_append_right _ hx))
              obtain ⟨s₃, hrun', htaken'⟩ := ihis (hsame ▸ hrest) (hsame ▸ hnew)
              refine ⟨s₃, ?_, htaken.trans (hsame ▸ htaken')⟩
              simp only [hrun]
              exact hrun'

end Recursion

/-! ## The tables of the lower half -/

/-- A list of indices is the path of some address. -/
theorem exists_pathTo {p : List ℕ} (hlen : p.length < levels) (hlt : ∀ i ∈ p, i < 512) :
    ∃ v, pathTo v p.length = p := by
  have hidx : ∀ a < 512, ∀ b < 512, ∀ c < 512,
      pathTo (a * 2 ^ 39 + b * 2 ^ 30 + c * 2 ^ 21) 3 = [a, b, c] := by
    intro a ha b hb c hc
    simp only [pathTo, List.range_succ, List.range_zero, List.map_nil, List.map_cons,
      List.nil_append, List.cons_append, idx_eq, List.cons.injEq, and_true]
    omega
  have htake : ∀ v n, n ≤ 3 → pathTo v n = (pathTo v 3).take n := fun v n hn => by
    obtain ⟨r, hr⟩ := pathTo_isPrefixOf v hn
    rw [← hr, List.take_append_of_le_length (by simp), List.take_of_length_le (by simp)]
  have h0 : (0 : ℕ) < 512 := by decide
  rcases p with _ | ⟨a, _ | ⟨b, _ | ⟨c, _ | ⟨d, p⟩⟩⟩⟩
  · exact ⟨0, rfl⟩
  · refine ⟨a * 2 ^ 39 + 0 * 2 ^ 30 + 0 * 2 ^ 21, (htake _ _ (Nat.le_of_lt_succ hlen)).trans ?_⟩
    rw [hidx a (hlt a (by simp)) 0 h0 0 h0]
    rfl
  · refine ⟨a * 2 ^ 39 + b * 2 ^ 30 + 0 * 2 ^ 21, (htake _ _ (Nat.le_of_lt_succ hlen)).trans ?_⟩
    rw [hidx a (hlt a (by simp)) b (hlt b (by simp)) 0 h0]
    rfl
  · exact ⟨_, hidx a (hlt a (by simp)) b (hlt b (by simp)) c (hlt c (by simp))⟩
  · simp only [List.length_cons, levels] at hlen
    omega

section Lower

variable {pm : Pagemap} {st st' st₀ : Tables} {t : ℕ}

/-- Above the last level `getlvl` takes nothing but tables for tables. -/
theorem Pagemap.SmallWf.walk_followed (h : pm.SmallWf st) {p : List ℕ} (hp : p ∈ paths (· < 256))
    (hlt : ∀ i ∈ p, i < 512) : Radix.walk followed st.mem pm.table p = pm.walk st p := by
  induction p using List.reverseRecOn with
  | nil => rfl
  | append_singleton p i ih =>
      have hpre := paths_prefixClosed _ p [i] hp
      have hwalk := ih hpre fun j hj => hlt j (List.mem_append_left _ hj)
      have hold : pm.walk st p = Radix.walk tableOf st.mem pm.table p := rfl
      rw [Pagemap.walk, Radix.walk_append, Radix.walk_append, hwalk, ← hold]
      cases hw : pm.walk st p with
      | none => rfl
      | some t' =>
          obtain ⟨v, hv⟩ := exists_pathTo hp.1 hlt
          rw [List.length_append, List.length_singleton] at hv
          have hv0 : idx v 0 < 256 := hp.2 _ (by
            rw [← hv, pathTo, List.range_succ_eq_map, List.map_cons, List.head?_cons]
            rfl)
          rw [pathTo_succ] at hv
          obtain ⟨hvp, hvi⟩ := List.append_inj' hv rfl
          have hlen : p.length < 3 := by
            have := hp.1
            rw [List.length_append, List.length_singleton] at this
            exact Nat.lt_of_succ_lt_succ this
          have hentry := (h.clear v hv0).entry hlen (hvp ▸ hw)
          rw [List.singleton_inj.mp hvi] at hentry
          rw [Option.bind_some, Option.bind_some, Radix.walk, Radix.walk]
          rcases hentry with hempty | ⟨t'', ht''⟩
          · rw [hempty]
            rfl
          · obtain ⟨hcond, haddr, -⟩ := tableOf_eq_some ht''
            rw [ht'', followed, if_pos hcond, haddr]
            rfl

/-- A call on the lower half leaves the tables there and hangs in the new ones. -/
theorem Pagemap.SmallWf.call (hpm : pm.FreshTables) (h : pm.SmallWf st) {op : SmallOp}
    (hop : op.Lower) {r : Except Error op.Result} (hcall : pm.Call st op r st') :
    pm.SmallWf st' ∧ pm.Grows (· < 256) st st' := by
  have hrefl : pm.SmallWf st ∧ pm.Grows (· < 256) st st := ⟨h, .of_walk rfl fun _ _ => rfl⟩
  have hsmall : fromPageSize .small = psize := rfl
  cases op with
  | map vaddr paddr length flags cache =>
      by_cases hv : psize ∣ vaddr
      · obtain ⟨page, rfl⟩ := hv
        rw [Pagemap.Call, Nat.mul_comm] at hcall
        rw [SmallOp.Lower, Nat.mul_comm] at hop
        rcases h.map hpm hop flags cache with ⟨st₁, hret, hwf, -, hupd, -⟩ | hpanic
        · obtain ⟨rfl, -⟩ := Prod.mk.inj (hcall.unique hret)
          exact ⟨hwf, hupd.grows⟩
        · exact absurd hpanic hcall.not_stops
      · have hstop : ∀ fuel, pm.map fuel vaddr paddr length flags .small cache st =
            .ok (st, .error .addrNotAligned) := by
          intro fuel
          rw [Pagemap.map, fixpsize_small, hsmall]
          exact if_pos fun h0 => hv (Nat.dvd_of_mod_eq_zero h0)
        obtain ⟨-, rfl⟩ := hcall.unique (Returns.of_eq hstop)
        exact hrefl
  | unmap vaddr length =>
      by_cases hv : psize ∣ vaddr
      · obtain ⟨page, rfl⟩ := hv
        rw [Pagemap.Call, Nat.mul_comm] at hcall
        rw [SmallOp.Lower, Nat.mul_comm] at hop
        obtain ⟨st₁, hret, hwf, -, hupd⟩ := h.unmap hop
        obtain ⟨rfl, -⟩ := Prod.mk.inj (hcall.unique hret)
        exact ⟨hwf, hupd.grows⟩
      · have hstop : ∀ fuel, pm.unmap fuel vaddr length .small st =
            .ok (st, .error .addrNotAligned) := by
          intro fuel
          rw [Pagemap.unmap, fixpsize_small, hsmall]
          exact if_pos fun h0 => hv (Nat.dvd_of_mod_eq_zero h0)
        obtain ⟨-, rfl⟩ := hcall.unique (Returns.of_eq hstop)
        exact hrefl
  | protect vaddr length flags cache =>
      by_cases hv : psize ∣ vaddr
      · obtain ⟨page, rfl⟩ := hv
        rw [Pagemap.Call, Nat.mul_comm] at hcall
        rw [SmallOp.Lower, Nat.mul_comm] at hop
        obtain ⟨st₁, r₁, k, hret, hwf, -, hupd, -⟩ := h.protect hop flags cache
        obtain ⟨rfl, -⟩ := Prod.mk.inj (hcall.unique hret)
        exact ⟨hwf, hupd.grows⟩
      · have hstop : ∀ fuel, pm.protect fuel vaddr length flags .small cache st =
            .ok (st, .error .addrNotAligned) := by
          intro fuel
          rw [Pagemap.protect, fixpsize_small, hsmall]
          exact if_pos fun h0 => hv (Nat.dvd_of_mod_eq_zero h0)
        obtain ⟨-, rfl⟩ := hcall.unique (Returns.of_eq hstop)
        exact hrefl
  | translate vaddr =>
      by_cases hv : psize ∣ vaddr
      · obtain ⟨page, rfl⟩ := hv
        rw [Pagemap.Call, Nat.mul_comm] at hcall
        have hpage : page < lowerPages := by
          simp only [SmallOp.Lower, psize, lowerPages] at hop ⊢
          omega
        have hext := h.translate_extends hpage hcall
        exact ⟨hext.small h, hext.grows⟩
      · have hstop : pm.translate vaddr .small st = .ok (st, .error .addrNotAligned) := by
          rw [Pagemap.translate, fixpsize_small, hsmall]
          exact if_pos fun h0 => hv (Nat.dvd_of_mod_eq_zero h0)
        obtain ⟨-, rfl⟩ := hcall.unique hstop
        exact hrefl

/-- The lower half is empty when a constructor is done. -/
theorem Pagemap.preallocate_lower (hpm : pm.FreshTables) {left : ℕ} : ∀ {st st' i}, 256 ≤ i →
    (∀ j < 256, st.mem pm.table j = 0#64) → pm.preallocate i left st = .ok st' →
    ∀ j < 256, st'.mem pm.table j = 0#64 := by
  induction left with
  | zero =>
      intro st st' i _ h heq
      rw [Pagemap.preallocate, Except.ok.injEq] at heq
      exact heq ▸ h
  | succ left ih =>
      intro st st' i hi h heq
      rw [Pagemap.preallocate] at heq
      cases hlvl : pm.getlvl pm.table i true st with
      | error stop =>
          rw [hlvl] at heq
          cases heq
      | ok r =>
          rw [hlvl] at heq
          refine ih (Nat.le_succ_of_le hi) (fun j hj => ?_) heq
          rw [Pagemap.getlvl] at hlvl
          split at hlvl
          · obtain rfl := Except.ok.inj hlvl
            exact h j hj
          · rw [if_neg (by decide)] at hlvl
            split at hlvl
            · cases hlvl
            · rename_i n hn
              obtain rfl := Except.ok.inj hlvl
              have hne : pm.table ≠ n := fun heq' => hpm.ne_table st.ntables (heq' ▸ hn)
              simp only [Tables.write, Tables.clearTable]
              rw [Radix.set_of_ne (fun hc => by omega), Function.update_of_ne hne]
              exact h j hj

theorem Pagemap.Constructed.lower (hpm : pm.FreshTables) (h : pm.Constructed st) :
    ∀ j < 256, st.mem pm.table j = 0#64 := by
  rcases h with ⟨st₀, hst₀, hcon⟩ | ⟨ktable, st₀, rfl⟩
  · exact preallocate_lower hpm le_rfl (fun j hj => hst₀ j (by omega)) hcon
  · intro j hj
    rw [Pagemap.constructShared]
    dsimp only
    rw [Function.update_self, if_neg (by omega)]

/-- The tables of the lower half of a page map are the root and those made since its construction. -/
theorem Pagemap.tables_lower (hpm : pm.FreshTables) (h₀ : pm.Constructed st₀)
    (h : (pm.lowerSystem.startAt st₀).Reachable st) :
    pm.SmallWf st ∧ pm.Grows (· < 256) st₀ st := by
  refine h.invariant (I := fun st => pm.SmallWf st ∧ pm.Grows (· < 256) st₀ st) ?_ ?_
  · rintro s rfl
    exact ⟨(SmallWf.of_empty (h₀.lower hpm)).1, .of_walk rfl fun _ _ => rfl⟩
  · rintro s l s' - ⟨hwf, hgrows⟩ ⟨hop, hcall⟩
    obtain ⟨hwf', hgrows'⟩ := hwf.call hpm hop hcall
    exact ⟨hwf', hgrows.trans hgrows'⟩

/-- A list of indices that `~pagemap` goes along. -/
theorem listed_iff {p : List ℕ} : Radix.Listed (List.range 512) (List.range' 0 (256 - 0)) 4 p ↔
    p ∈ paths (· < 256) ∧ ∀ i ∈ p, i < 512 := by
  have hmem : ∀ i, i ∈ List.range' 0 (256 - 0) ↔ i < 256 := fun i => by
    rw [← List.range_eq_range', List.mem_range]
  constructor
  · rintro ⟨hlen, hhead, htail⟩
    refine ⟨⟨hlen, fun i hi => (hmem i).mp (hhead i hi)⟩, fun i hi => ?_⟩
    rcases p with - | ⟨j, p⟩
    · cases hi
    · rcases List.mem_cons.mp hi with rfl | hi
      · exact ((hmem i).mp (hhead i rfl)).trans (by decide)
      · exact List.mem_range.mp (htail i hi)
  · rintro ⟨⟨hlen, hhead⟩, hlt⟩
    exact ⟨hlen, fun i hi => (hmem i).mpr (hhead i hi),
      fun i hi => List.mem_range.mpr (hlt i (List.mem_of_mem_tail hi))⟩

/-- The tables of the lower half that hang in the root are those that `getlvl` has made. -/
theorem Pagemap.exists_path_iff (hpm : pm.FreshTables) (h₀ : pm.Constructed st₀)
    (hgrows : pm.Grows (· < 256) st₀ st) :
    (∃ p, (p ∈ paths (· < 256) ∧ ∀ i ∈ p, i < 512) ∧ pm.walk st p = some t) ↔
      t = pm.table ∨ pm.Allocated st₀ st t := by
  constructor
  · rintro ⟨p, ⟨hp, -⟩, hw⟩
    rcases hgrows.back p hp t hw with hold | hnew
    · -- the old table is the root
      rcases p with - | ⟨i, p⟩
      · exact Or.inl (Option.some.inj hw).symm
      · rw [Pagemap.walk, Radix.walk, h₀.lower hpm i (hp.2 i rfl)] at hold
        cases hold
    · exact Or.inr hnew
  · rintro (rfl | ⟨k, hk, hk', hkt⟩)
    · exact ⟨[], ⟨⟨by decide, fun i hi => by cases hi⟩, fun i hi => by cases hi⟩, rfl⟩
    · obtain ⟨p, hp, hlt, hw⟩ := hgrows.reached k hk hk' t hkt
      exact ⟨p, ⟨hp, hlt⟩, hw⟩

end Lower

/-- **Destruction.** After any calls with small pages on the lower half, `~pagemap` gives back the root
and every table that `getlvl` has made since the construction, each of them once, and nothing else: no
page that somebody else got from the allocator, and no table that was there before. -/
theorem destroy_frees_own_tables {pm : Pagemap} (hpm : pm.FreshTables) {st₀ st : Tables}
    (h₀ : pm.Constructed st₀) (h : (pm.lowerSystem.startAt st₀).Reachable st)
    (scribble : List ℕ → ℕ → ℕ → BitVec 64) :
    ∃ s, pm.destroy scribble st = .ok s ∧ s.freed.Nodup ∧
      (∀ t, t ∈ s.freed ↔ t = pm.table ∨ pm.Allocated st₀ st t) ∧
      ∀ t, t ≠ pm.table → (∀ k, st₀.ntables ≤ k → pm.newTable k ≠ some t) → t ∉ s.freed := by
  obtain ⟨hwf, hgrows⟩ := Pagemap.tables_lower hpm h₀ h
  have hwalk : ∀ p, Radix.Listed (List.range 512) (List.range' 0 (256 - 0)) 4 p →
      Radix.walk followed st.mem pm.table p = pm.walk st p := fun p hp =>
    hwf.walk_followed (listed_iff.mp hp).1 (listed_iff.mp hp).2
  have hnodup : (Teardown.below ⟨st, []⟩ 4 (List.range' 0 (256 - 0)) pm.table).Nodup := by
    refine Radix.nodup_tables List.nodup_range List.nodup_range' fun p q hp hq t hwp hwq => ?_
    rw [hwalk p hp] at hwp
    rw [hwalk q hq] at hwq
    exact hwf.wf.tree.inj p (listed_iff.mp hp).1 q (listed_iff.mp hq).1 t hwp hwq
  obtain ⟨s, hrun, hfreed, -⟩ := pm.destroyFrom_spec scribble 0 256 hnodup fun x _ => List.not_mem_nil
  rw [List.append_nil] at hfreed
  have hmem : ∀ t, t ∈ s.freed ↔ t = pm.table ∨ pm.Allocated st₀ st t := by
    intro t
    rw [hfreed, List.mem_reverse, Teardown.below, Radix.mem_tables,
      ← Pagemap.exists_path_iff hpm h₀ hgrows]
    refine exists_congr fun p => ?_
    rw [listed_iff]
    refine and_congr_right fun hp => ?_
    rw [hwalk p (listed_iff.mpr hp)]
  refine ⟨s, hrun, hfreed ▸ List.nodup_reverse.mpr hnodup, hmem, fun t hne hnew ht => ?_⟩
  rcases (hmem t).mp ht with heq | ⟨k, hk, -, hkt⟩
  · exact hne heq
  · exact hnew k hk hkt

/-- With one page mapped, the root and three tables are given back. -/
theorem destroy_frees_own_tables_mapped : ∃ st s,
    exampleMachine.destroy (fun _ _ _ => 1#64) st = .ok s ∧ s.freed.Nodup ∧
      (∀ t, t ∈ s.freed ↔ t = 0x1000 ∨ t = 0x2000 ∨ t = 0x3000 ∨ t = 0x4000) ∧ 0x7000 ∉ s.freed := by
  have h₀ : exampleMachine.Constructed (exampleMachine.constructShared 0x800000 Tables.empty) :=
    Or.inr ⟨_, _, rfl⟩
  have h₁ : (exampleMachine.lowerSystem.startAt
      (exampleMachine.constructShared 0x800000 Tables.empty)).Reachable _ := .init rfl
  have hmap : ∃ st', exampleMachine.Call (exampleMachine.constructShared 0x800000 Tables.empty)
      (.map 0x400000 0x7000 0x1000 Pflag.rw .writeBack) (.ok ()) st' ∧ st'.ntables = 3 :=
    ⟨_, ⟨5, fun fuel hfuel => by
      obtain ⟨n, rfl⟩ := Nat.exists_eq_add_of_le' hfuel
      rfl⟩, rfl⟩
  obtain ⟨st₁, hcall₁, hn₁⟩ := hmap
  have h₂ := h₁.step (l := ⟨.map 0x400000 0x7000 0x1000 Pflag.rw .writeBack, .ok ()⟩)
    ⟨by simp only [SmallOp.Lower]; decide, hcall₁⟩
  obtain ⟨s, hrun, hnodup, hmem, -⟩ :=
    destroy_frees_own_tables exampleMachine_freshTables h₀ h₂ fun _ _ _ => 1#64
  have htables : ∀ t, exampleMachine.Allocated
      (exampleMachine.constructShared 0x800000 Tables.empty) st₁ t ↔
        t = 0x2000 ∨ t = 0x3000 ∨ t = 0x4000 := by
    intro t
    rw [Pagemap.Allocated, hn₁]
    constructor
    · rintro ⟨k, -, hk, hkt⟩
      obtain rfl := Option.some.inj ((if_pos (by omega)).symm.trans hkt)
      omega
    · rintro (rfl | rfl | rfl)
      · exact ⟨0, Nat.zero_le _, by decide, rfl⟩
      · exact ⟨1, Nat.zero_le _, by decide, rfl⟩
      · exact ⟨2, Nat.zero_le _, by decide, rfl⟩
  refine ⟨st₁, s, hrun, hnodup, fun t => (hmem t).trans (or_congr_right (htables t)), fun h => ?_⟩
  rcases (hmem _).mp h with heq | hall
  · cases heq
  · simp [htables] at hall

end Ilobilix.Vmm
