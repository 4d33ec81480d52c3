import Ilobilix.Foundation.Fuel
import Ilobilix.Memory.Pagemap.Walk

/-!
# One page at a time

The bodies of the loops of `map`, `protect` and `unmap`, and the loops. `Sets` says what writing the
entry of a page does to the tables: the addresses of that page are decided by the new entry, and
nothing else changes.
-/

namespace Ilobilix.Vmm

/-- The entry of the page of `v` at depth `d` becomes `e`. -/
structure Pagemap.Sets (pm : Pagemap) (P : ℕ → Prop) (v d : ℕ) (e : BitVec 64) (st st' : Tables) :
    Prop where
  wf : pm.Wf st' P
  lookup_same : ∀ w, pathTo w (d + 1) = pathTo v (d + 1) →
    pm.lookup st' w = if e = 0#64 then none else some ((pathTo w levels).drop (d + 1), e)
  lookup_other : ∀ w, P (idx w 0) → pathTo w (d + 1) ≠ pathTo v (d + 1) →
    pm.lookup st' w = pm.lookup st w
  clear : ∀ w d', P (idx w 0) → d' ≤ d → pm.Clear st w d' → pm.Clear st' w d'
  walk : ∀ p ∈ paths P, p.length ≤ d → ∀ t, pm.walk st p = some t → pm.walk st' p = some t
  grows : d + 1 = levels → pm.Grows P st st'
  logs : pm.Logs st st'

section Sets

variable {pm : Pagemap} {P : ℕ → Prop} {st st' : Tables} {v d t : ℕ} {e : BitVec 64}

theorem depth_lt (psize : PageSize) : depth psize < levels := by
  cases psize <;> decide

theorem pathTo_prefix_iff {v w i : ℕ} {j : ℕ} (hij : i ≤ j) :
    pathTo v i <+: pathTo w j ↔ pathTo w i = pathTo v i := by
  have hpre := pathTo_isPrefixOf w hij
  constructor
  · intro h
    exact (List.prefix_of_prefix_length_le hpre h (by simp)).eq_of_length (by simp)
  · exact fun h => h ▸ hpre

private theorem lookup_of_slot {q rest : List ℕ} {e : BitVec 64} {mem : ℕ → ℕ → BitVec 64} {root : ℕ}
    (h : Radix.slot tableOf mem root q = some (rest, e)) :
    Radix.lookup tableOf 0#64 mem root q = if e = 0#64 then none else some (rest, e) := by
  rw [Radix.lookup, h, Option.filter]
  by_cases he : e = 0#64 <;> simp [he]

private theorem pathTo_split (w : ℕ) {d : ℕ} (hd : d < levels) :
    pathTo w levels = pathTo w d ++ idx w d :: (pathTo w levels).drop (d + 1) := by
  obtain ⟨r, hr⟩ := pathTo_isPrefixOf w (Nat.succ_le_of_lt hd)
  have hdrop : (pathTo w levels).drop (d + 1) = r := by
    rw [← hr, List.drop_append_of_le_length (by simp), List.drop_of_length_le (by simp),
      List.nil_append]
  rw [hdrop, ← hr, pathTo_succ, List.append_assoc, List.singleton_append]

/-- A write at depth `d` changes no path up to there. -/
theorem Pagemap.Wf.walk_write (h : pm.Wf st P) (hv : P (idx v 0)) (hd : d < levels)
    (hw : pm.walk st (pathTo v d) = some t) {p : List ℕ} (hp : p ∈ paths P) (hlen : p.length ≤ d) :
    pm.walk (st.write t (idx v d) e) p = pm.walk st p := by
  have hS := paths_prefixClosed P
  refine h.tree.walk_set_of_apart hS (pathTo_mem_paths hv hd) hw (hS.dropLast hp) fun hpre => ?_
  have := hpre.length_le
  simp only [List.length_append, length_pathTo, List.length_singleton] at this
  omega

/-- Writing an entry that is not a table, or one of the last level. -/
theorem Pagemap.Wf.write (h : pm.Wf st P) (hv : P (idx v 0)) (hd : d < levels)
    (hw : pm.walk st (pathTo v d) = some t) (he : d + 1 = levels ∨ tableOf e = none) :
    pm.Sets P v d e st (st.write t (idx v d) e) := by
  have hS := paths_prefixClosed P
  have hp : pathTo v d ∈ paths P := pathTo_mem_paths hv hd
  have hleaf : pathTo v d ++ [idx v d] ∈ paths P → tableOf e = none := by
    rintro ⟨hlen, -⟩
    rw [← pathTo_succ, length_pathTo] at hlen
    exact he.resolve_left hlen.ne
  refine ⟨⟨h.tree.set_leaf hS hp hw hleaf, ?_⟩, ?_, ?_, ?_, ?_, fun hlast => .of_walk rfl ?_,
    le_rfl, fun _ => Or.inl, ?_⟩
  · exact fun q hq t' hq' => h.owned q hq t' (h.tree.walk_of_walk_set hS hp hw hleaf hq hq')
  · intro w hwv
    have hpath : pathTo w d = pathTo v d ∧ idx w d = idx v d := by
      rw [pathTo_succ, pathTo_succ] at hwv
      exact ⟨(List.append_inj' hwv rfl).1, List.singleton_inj.mp (List.append_inj' hwv rfl).2⟩
    refine lookup_of_slot ?_
    conv => lhs; rw [pathTo_split w hd, hpath.1, hpath.2]
    refine h.tree.slot_set_below hS hp hw _ ?_
    refine he.imp (fun hlast => ?_) id
    rw [List.drop_eq_nil_iff, length_pathTo, hlast]
  · intro w hPw hne
    have hslot := h.tree.slot_set_of_apart (q := pathTo w levels) (j := idx v d) (e := e) hS hp
      hw (pathTo_dropLast w 3 ▸ pathTo_mem_paths hPw (by decide))
      (by rwa [← pathTo_succ, pathTo_prefix_iff (Nat.succ_le_of_lt hd)])
    rw [Pagemap.lookup, Pagemap.lookup, Radix.lookup, Radix.lookup]
    exact congrArg _ hslot
  · intro w d' hPw hd' hc
    refine h.tree.clear_set_of_apart hS hp hw (hS.dropLast (pathTo_mem_paths hPw (by omega)))
      (fun hpre => ?_) hc
    have := hpre.length_le
    simp only [List.length_append, length_pathTo, List.length_singleton] at this
    omega
  · exact fun q hq hlen t' hq' => (h.walk_write hv hd hw hq hlen).trans hq'
  · exact fun q hq => h.walk_write hv hd hw hq (Nat.le_of_lt_succ (hq.1.trans_eq hlast.symm))
  · intro t' ht'
    rcases List.mem_cons.mp ht' with rfl | ht'
    · exact Or.inr (h.owned _ hp _ hw)
    · exact Or.inl ht'

/-- A write after the tables were extended. -/
theorem Pagemap.Extends.sets {st₁ st₂ : Tables} (h₁ : pm.Extends P st st₁) (hd : d < levels)
    (h₂ : pm.Sets P v d e st₁ st₂) : pm.Sets P v d e st st₂ where
  wf := h₂.wf
  lookup_same := h₂.lookup_same
  lookup_other w hw hne := (h₂.lookup_other w hw hne).trans (h₁.lookup w hw)
  clear w d' hw hd' hc := h₂.clear w d' hw hd' (h₁.clear w d' hw (hd'.trans_lt hd) hc)
  walk p hp hlen t ht := h₂.walk p hp hlen t (h₁.walk p hp t ht)
  grows hlast := h₁.grows.trans (h₂.grows hlast)
  logs := h₁.logs.trans h₂.logs

/-- Where the tables do not reach, clearing the entry of a page does nothing. -/
theorem Pagemap.Extends.sets_zero (h : pm.Extends P st st') (hmem : st'.mem = st.mem)
    (hd : d < levels) (hc : pm.Clear st v d) (hw : pm.walk st (pathTo v d) = none) :
    pm.Sets P v d 0#64 st st' where
  wf := h.wf
  lookup_same w hwv := by
    have hpath : pathTo w d = pathTo v d := by
      rw [pathTo_succ, pathTo_succ] at hwv
      exact (List.append_inj' hwv rfl).1
    obtain ⟨rest, hslot⟩ := Radix.slot_of_walk_none (r := idx w d :: (pathTo w levels).drop (d + 1))
      hc tableOf_zero hw (List.cons_ne_nil _ _)
    rw [← hpath, ← pathTo_split w hd] at hslot
    rw [Pagemap.lookup, hmem, lookup_of_slot hslot]
    rfl
  lookup_other w hw _ := h.lookup w hw
  clear w d' hw hd' hc := h.clear w d' hw (hd'.trans_lt hd) hc
  walk p hp _ t ht := h.walk p hp t ht
  grows _ := h.grows
  logs := h.logs

/-- The entry that decides about an address, when it is one at depth `d`. -/
theorem Pagemap.entry_of_lookup (hd : d < levels) (hw : pm.walk st (pathTo v d) = some t)
    (hl : pm.lookup st v = some ((pathTo v levels).drop (d + 1), e)) :
    st.mem t (idx v d) = e ∧ (d + 1 = levels ∨ tableOf e = none) := by
  obtain ⟨hslot, -⟩ := Option.filter_eq_some_iff.mp hl
  have hslot' : Radix.slot tableOf st.mem t (idx v d :: (pathTo v levels).drop (d + 1)) =
      some ((pathTo v levels).drop (d + 1), e) := by
    rw [← Radix.slot_append hw (List.cons_ne_nil _ _), ← pathTo_split v hd, hslot]
  have hlen : ((pathTo v levels).drop (d + 1)).length = levels - (d + 1) := by simp
  rcases hrest : (pathTo v levels).drop (d + 1) with - | ⟨i, r⟩
  · rw [hrest, Radix.slot, Option.some.injEq, Prod.mk.injEq] at hslot'
    rw [hrest, List.length_nil] at hlen
    exact ⟨hslot'.2, Or.inl (by omega)⟩
  · rw [hrest, Radix.slot] at hslot'
    cases ht : tableOf (st.mem t (idx v d)) with
    | some t' =>
        rw [ht] at hslot'
        exact absurd (Radix.length_of_slot hslot') (lt_irrefl _)
    | none =>
        rw [ht, Option.some.injEq, Prod.mk.injEq] at hslot'
        exact ⟨hslot'.2, Or.inr (hslot'.2 ▸ ht)⟩

/-- The entry at depth `d`, when it is not a table, decides about its page. -/
theorem Pagemap.lookup_of_walk (hd : d < levels) (hw : pm.walk st (pathTo v d) = some t)
    (he : d + 1 = levels ∨ tableOf (st.mem t (idx v d)) = none) :
    pm.lookup st v = if st.mem t (idx v d) = 0#64 then none
      else some ((pathTo v levels).drop (d + 1), st.mem t (idx v d)) := by
  refine lookup_of_slot ?_
  conv => lhs; rw [pathTo_split v hd]
  rw [Radix.slot_append hw (List.cons_ne_nil _ _)]
  rcases hrest : (pathTo v levels).drop (d + 1) with - | ⟨i, r⟩
  · rw [Radix.slot]
  · have hnone : tableOf (st.mem t (idx v d)) = none := by
      refine he.resolve_left fun hlast => ?_
      rw [hlast, List.drop_of_length_le (by simp)] at hrest
      cases hrest
    rw [Radix.slot, hnone]

end Sets

/-! ## The bodies of the loops -/

section Bodies

variable {pm : Pagemap} {P : ℕ → Prop} {st : Tables} {vaddr i : ℕ} (psize : PageSize)

theorem tableOf_of_isLeaf {e : BitVec 64} (h : isLeaf e = true) : tableOf e = none := by
  rw [tableOf, h, Bool.not_true, Bool.and_false]
  rfl

/-- An entry with the flags of a page is not a table, unless it is of the last level. -/
theorem tableOf_of_flags {e : BitVec 64} {flags : Pflag} {cache : Caching}
    (h : isLeaf e = (toArch flags cache psize).getLsbD 7) :
    depth psize + 1 = levels ∨ tableOf e = none := by
  by_cases hsmall : psize = .small
  · exact Or.inl (by rw [hsmall]; rfl)
  · refine Or.inr (tableOf_of_isLeaf ?_)
    rw [h, toArch_lpages flags cache hsmall]

/-- The value that `map` writes. -/
def mapEntry (paddr : ℕ) (aflags : BitVec 64) : BitVec 64 := setflags (setaddr 0#64 paddr) aflags

/-- The value that `protect` writes. -/
def protectEntry (e aflags : BitVec 64) : BitVec 64 := setflags (clearflags e) aflags

theorem Pagemap.Wf.mapPage (hpm : pm.FreshTables) (h : pm.Wf st P) {v paddr : ℕ}
    (hv : v = (vaddr + i) % 2 ^ 64) (hP : P (idx v 0)) (hc : pm.Clear st v (depth psize))
    (flags : Pflag) (cache : Caching) :
    (∃ st', (∀ fuel, pm.mapPage fuel vaddr paddr psize (toArch flags cache psize) i st =
        .ok (st', .ok ())) ∧
      pm.Sets P v (depth psize) (mapEntry ((paddr + i) % 2 ^ 64) (toArch flags cache psize))
        st st' ∧
      (pm.walk st' (pathTo v (depth psize))).isSome) ∨
    ∀ fuel, pm.mapPage fuel vaddr paddr psize (toArch flags cache psize) i st = .error .panic := by
  subst hv
  rcases h.getpte_alloc hpm hP psize hc with ⟨st₁, t, hget, hext, hw⟩ | hget
  · have hset := hext.wf.write hP (depth_lt psize) hw (tableOf_of_flags psize
      (getLsbD_mk ((paddr + i) % 2 ^ 64) (toArch flags cache psize) rfl))
    refine Or.inl ⟨_, fun fuel => by rw [Pagemap.mapPage, hget], hext.sets (depth_lt psize) hset, ?_⟩
    have hw' := hset.walk _ (pathTo_mem_paths hP (depth_lt psize)) (length_pathTo _ _).le t hw
    exact Option.isSome_of_eq_some hw'
  · exact Or.inr fun fuel => by rw [Pagemap.mapPage, hget]

theorem Pagemap.Wf.unmapPage (h : pm.Wf st P) {v : ℕ} (hv : v = (vaddr + i) % 2 ^ 64)
    (hP : P (idx v 0)) (hc : pm.Clear st v (depth psize)) :
    ∃ st', pm.unmapPage vaddr psize i st = .ok (st', .ok ()) ∧
      pm.Sets P v (depth psize) 0#64 st st' := by
  obtain ⟨st₁, hext, hmem, ⟨t, hw, hget⟩ | ⟨hw, hget⟩⟩ := h.getpte_walk psize hc
  · rw [hv] at hget
    refine ⟨st₁.write t (idx v (depth psize)) 0#64, by rw [Pagemap.unmapPage, hget, hv], ?_⟩
    have hw₁ : pm.walk st₁ (pathTo v (depth psize)) = some t := by
      rw [Pagemap.walk, hmem]
      exact hw
    exact hext.sets (depth_lt psize) (hext.wf.write hP (depth_lt psize) hw₁ (Or.inr tableOf_zero))
  · rw [hv] at hget
    exact ⟨st₁, by rw [Pagemap.unmapPage, hget], hext.sets_zero hmem (depth_lt psize) hc hw⟩

theorem Pagemap.Wf.protectPage (h : pm.Wf st P) {v : ℕ} (hv : v = (vaddr + i) % 2 ^ 64)
    (hP : P (idx v 0)) (hc : pm.Clear st v (depth psize)) (flags : Pflag) (cache : Caching) :
    (∃ st' t, pm.walk st (pathTo v (depth psize)) = some t ∧
      pm.protectPage vaddr psize (toArch flags cache psize) i st = .ok (st', .ok ()) ∧
      pm.Sets P v (depth psize)
        (protectEntry (st.mem t (idx v (depth psize))) (toArch flags cache psize)) st st' ∧
      ∀ p ∈ paths P, p.length ≤ depth psize → pm.walk st' p = pm.walk st p) ∨
    (∃ st', pm.walk st' (pathTo v (depth psize)) = none ∧ pm.Extends P st st' ∧
      pm.protectPage vaddr psize (toArch flags cache psize) i st =
        .ok (st', .error .invalidEntry)) := by
  obtain ⟨st₁, hext, hmem, ⟨t, hw, hget⟩ | ⟨hw, hget⟩⟩ := h.getpte_walk psize hc
  · rw [hv] at hget
    have hw₁ : pm.walk st₁ (pathTo v (depth psize)) = some t := by
      rw [Pagemap.walk, hmem]
      exact hw
    refine Or.inl ⟨st₁.write t (idx v (depth psize)) (protectEntry (st.mem t (idx v (depth psize)))
      (toArch flags cache psize)), t, hw, ?_, ?_, ?_⟩
    · rw [Pagemap.protectPage, hget, hv]
      simp only [hmem, protectEntry]
    · exact hext.sets (depth_lt psize) (hext.wf.write hP (depth_lt psize) hw₁
        (tableOf_of_flags psize (getLsbD_reflag _ _ rfl)))
    · intro p hp hlen
      refine (hext.wf.walk_write hP (depth_lt psize) hw₁ hp hlen).trans ?_
      rw [Pagemap.walk, hmem, Pagemap.walk]
  · rw [hv] at hget
    refine Or.inr ⟨st₁, ?_, hext, by rw [Pagemap.protectPage, hget]⟩
    rw [Pagemap.walk, hmem]
    exact hw

end Bodies

/-! ## The loop -/

/-- The number of turns of a loop over `length` bytes in steps of `npsize`. -/
def turns (npsize length : ℕ) : ℕ := (length + npsize - 1) / npsize

theorem lt_turns {npsize length k : ℕ} (hpos : 0 < npsize) :
    k < turns npsize length ↔ k * npsize < length := by
  rw [turns, Nat.lt_iff_add_one_le, Nat.le_div_iff_mul_le hpos, Nat.add_one_mul]
  omega

section Loop

variable {npsize length : ℕ} (body : ℕ → ℕ → Tables → Except Stop (Tables × Except Error Unit))
  (I : ℕ → Tables → Prop) (E : ℕ → Tables → Error → Prop) (panics : Prop)

/-- The rule for the loops: `I k` holds after `k` turns, `E k` after turn `k` left the loop, and a body
that panics stops the function. -/
theorem forPages_rule (hpos : 0 < npsize) (hlen : length + npsize ≤ 2 ^ 64)
    (hbody : ∀ k st, k * npsize < length → I k st →
      (∃ st', (∀ fuel, body fuel (k * npsize) st = .ok (st', .ok ())) ∧ I (k + 1) st') ∨
      (∃ st' err, (∀ fuel, body fuel (k * npsize) st = .ok (st', .error err)) ∧ E k st' err) ∨
      ((∀ fuel, body fuel (k * npsize) st = .error .panic) ∧ panics))
    {st : Tables} (h₀ : I 0 st) :
    (∃ st', Returns (fun fuel => forPages npsize length (body fuel) fuel 0 st) (st', .ok ()) ∧
      I (turns npsize length) st') ∨
    (∃ st' err k, k * npsize < length ∧
      Returns (fun fuel => forPages npsize length (body fuel) fuel 0 st) (st', .error err) ∧
      E k st' err) ∨
    (Stops (fun fuel => forPages npsize length (body fuel) fuel 0 st) .panic ∧ panics) := by
  -- induction on the turns left; the fuel of the body and of the loop are kept apart
  have hrun : ∀ n k st, k + n = turns npsize length → I k st → ∃ res,
      (∀ g fuel, n < fuel → forPages npsize length (body g) fuel (k * npsize) st = res) ∧
      ((∃ st', res = .ok (st', .ok ()) ∧ I (turns npsize length) st') ∨
        (∃ st' err k', k' * npsize < length ∧ res = .ok (st', .error err) ∧ E k' st' err) ∨
        (res = .error .panic ∧ panics)) := by
    intro n
    induction n with
    | zero =>
        intro k st hk hI
        have hstop : ¬ k * npsize < length := by
          rw [← lt_turns hpos]
          omega
        refine ⟨_, fun g fuel hfuel => ?_, Or.inl ⟨st, rfl, by rwa [← hk]⟩⟩
        obtain ⟨m, rfl⟩ := Nat.exists_eq_add_of_lt hfuel
        rw [Nat.zero_add, forPages, if_neg hstop]
    | succ n ih =>
        intro k st hk hI
        have hgo : k * npsize < length := by
          rw [← lt_turns hpos]
          omega
        have hnext : (k * npsize + npsize) % 2 ^ 64 = (k + 1) * npsize := by
          rw [Nat.mod_eq_of_lt (by omega), Nat.add_one_mul]
        rcases hbody k st hgo hI with ⟨st', hok, hI'⟩ | ⟨st', err, herr, hE⟩ | ⟨hpanic, hp⟩
        · obtain ⟨res, hres, hcases⟩ := ih (k + 1) st' (by omega) hI'
          refine ⟨res, fun g fuel hfuel => ?_, hcases⟩
          obtain ⟨m, rfl⟩ := Nat.exists_eq_add_of_lt hfuel
          rw [forPages, if_pos hgo, hok g]
          dsimp only
          rw [hnext]
          exact hres g _ (by omega)
        · refine ⟨_, fun g fuel hfuel => ?_, Or.inr (Or.inl ⟨st', err, k, hgo, rfl, hE⟩)⟩
          obtain ⟨m, rfl⟩ := Nat.exists_eq_add_of_lt hfuel
          rw [forPages, if_pos hgo, herr g]
        · refine ⟨_, fun g fuel hfuel => ?_, Or.inr (Or.inr ⟨rfl, hp⟩)⟩
          obtain ⟨m, rfl⟩ := Nat.exists_eq_add_of_lt hfuel
          rw [forPages, if_pos hgo, hpanic g]
  obtain ⟨res, hres, hcases⟩ := hrun _ 0 st (Nat.zero_add _) h₀
  have hfuel : ∀ fuel, turns npsize length + 1 ≤ fuel →
      forPages npsize length (body fuel) fuel 0 st = res := by
    intro fuel hf
    have := hres fuel fuel hf
    rwa [Nat.zero_mul] at this
  rcases hcases with ⟨st', rfl, hI⟩ | ⟨st', err, k, hk, rfl, hE⟩ | ⟨rfl, hp⟩
  · exact Or.inl ⟨st', ⟨_, hfuel⟩, hI⟩
  · exact Or.inr (Or.inl ⟨st', err, k, hk, ⟨_, hfuel⟩, hE⟩)
  · exact Or.inr (Or.inr ⟨⟨_, hfuel⟩, hp⟩)

end Loop

/-! ## More fuel -/

/-- More fuel, for the loop and for its body, does not change what a loop returns. -/
theorem forPages_mono {npsize length : ℕ}
    {body body' : ℕ → Tables → Except Stop (Tables × Except Error Unit)}
    (hbody : ∀ i st r, body i st = .ok r → body' i st = .ok r) {fuel : ℕ} :
    ∀ {fuel' i st r}, fuel ≤ fuel' → forPages npsize length body fuel i st = .ok r →
      forPages npsize length body' fuel' i st = .ok r := by
  induction fuel with
  | zero => exact fun _ h => by cases h
  | succ fuel ih =>
      intro fuel' i st r hle h
      obtain ⟨n, rfl⟩ := Nat.exists_eq_add_of_le' hle
      rw [forPages] at h
      rw [← Nat.add_assoc, forPages]
      split
      · rename_i hlt
        rw [if_pos hlt] at h
        cases hb : body i st with
        | error stop =>
            rw [hb] at h
            cases h
        | ok res =>
            rw [hbody i st res hb]
            rw [hb] at h
            obtain ⟨st', err | u⟩ := res
            · exact h
            · exact ih (by omega) h
      · rename_i hlt
        rwa [if_neg hlt] at h

theorem Pagemap.map_mono {pm : Pagemap} {fuel fuel' vaddr paddr length : ℕ} {flags : Pflag}
    {psize : PageSize} {cache : Caching} {st : Tables} {r : Tables × Except Error Unit}
    (hle : fuel ≤ fuel') (h : pm.map fuel vaddr paddr length flags psize cache st = .ok r) :
    pm.map fuel' vaddr paddr length flags psize cache st = .ok r := by
  rw [Pagemap.map] at h ⊢
  split
  · rename_i hv
    rwa [if_pos hv] at h
  · rename_i hv
    rw [if_neg hv] at h
    refine forPages_mono (fun i st r hb => ?_) hle h
    rw [Pagemap.mapPage] at hb ⊢
    cases hg : pm.getpte ((vaddr + i) % 2 ^ 64) (pm.fixpsize psize) true st with
    | error stop =>
        rw [hg] at hb
        cases hb
    | ok res =>
        rw [hg] at hb
        obtain ⟨st', err | ⟨t, j⟩⟩ := res
        · -- the pages before are taken back by a loop of its own
          cases hr : pm.rollback fuel vaddr (pm.fixpsize psize) i st' with
          | error stop =>
              simp only [hr] at hb
              cases hb
          | ok res =>
              have hr' : pm.rollback fuel' vaddr (pm.fixpsize psize) i st' = .ok res :=
                forPages_mono (fun _ _ _ => id) hle hr
              simp only [hr] at hb
              simp only [hr']
              exact hb
        · exact hb

end Ilobilix.Vmm
