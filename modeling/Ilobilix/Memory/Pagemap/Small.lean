import Ilobilix.Foundation.Transition
import Ilobilix.Memory.Pagemap.Pages

/-!
# Page maps with small pages

With `page_size::small` only, every entry above the last level is empty or points to a table, so every
path is clear and each operation is an update of the entries `pte` of a range of pages. The page map
then refines a map from pages to frames and flags: `pagemap_refines`.
-/

namespace Ilobilix.Vmm

/-! ## Addresses of the lower half -/

/-- The number of pages of the lower half. -/
def lowerPages : ℕ := 2 ^ 35

theorem idx_eq (v i : ℕ) : idx v i = v / 2 ^ (39 - 9 * i) % 512 := by
  rw [idx, Nat.shiftRight_eq_div_pow]
  exact Nat.and_two_pow_sub_one_eq_mod _ 9

theorem pathTo_levels (v : ℕ) : pathTo v levels = [idx v 0, idx v 1, idx v 2, idx v 3] := rfl

theorem idx_lower {page : ℕ} (h : page < lowerPages) : idx (page * psize) 0 < 256 := by
  simp only [idx_eq, lowerPages, psize] at h ⊢
  omega

/-- The indices of an address of the lower half determine its page. -/
theorem pathTo_inj {p q : ℕ} (hp : p < lowerPages) (hq : q < lowerPages) :
    pathTo (p * psize) levels = pathTo (q * psize) levels ↔ p = q := by
  refine ⟨fun h => ?_, fun h => h ▸ rfl⟩
  simp only [pathTo_levels, List.cons.injEq, idx_eq, psize, lowerPages, Nat.reduceMul, Nat.reduceSub,
    Nat.reducePow] at h hp hq
  omega

/-! ## Entries -/

/-- The entry of a page, zero where the tables do not reach. -/
def Pagemap.pte (pm : Pagemap) (st : Tables) (page : ℕ) : BitVec 64 :=
  ((pm.lookup st (page * psize)).map Prod.snd).getD 0#64

/-- The page has a table of the last level. -/
def Pagemap.HasTable (pm : Pagemap) (st : Tables) (page : ℕ) : Prop :=
  (pm.walk st (pathTo (page * psize) 3)).isSome

/-- The invariant of a page map whose lower half has only small pages. -/
structure Pagemap.SmallWf (pm : Pagemap) (st : Tables) : Prop where
  wf : pm.Wf st (· < 256)
  clear : ∀ v, idx v 0 < 256 → pm.Clear st v 3

section

variable {pm : Pagemap} {st st' : Tables} {page : ℕ}

theorem Pagemap.Extends.small (h : pm.SmallWf st) (hext : pm.Extends (· < 256) st st') :
    pm.SmallWf st' :=
  ⟨hext.wf, fun v hv => hext.clear v 3 hv (by decide) (h.clear v hv)⟩

theorem Pagemap.Extends.pte (hext : pm.Extends (· < 256) st st') (hpage : page < lowerPages) :
    pm.pte st' page = pm.pte st page := by
  rw [Pagemap.pte, hext.lookup _ (idx_lower hpage), Pagemap.pte]

theorem Pagemap.Extends.hasTable (hext : pm.Extends (· < 256) st st') (hpage : page < lowerPages)
    (h : pm.HasTable st page) : pm.HasTable st' page := by
  obtain ⟨t, ht⟩ := Option.isSome_iff_exists.mp h
  have hpath : pathTo (page * psize) 3 ∈ paths (· < 256) :=
    pathTo_mem_paths (idx_lower hpage) (by decide)
  exact Option.isSome_of_eq_some (hext.walk _ hpath t ht)

theorem Pagemap.Sets.hasTable {v : ℕ} {e : BitVec 64} (hset : pm.Sets (· < 256) v 3 e st st')
    (hpage : page < lowerPages) (h : pm.HasTable st page) : pm.HasTable st' page := by
  obtain ⟨t, ht⟩ := Option.isSome_iff_exists.mp h
  have hpath : pathTo (page * psize) 3 ∈ paths (· < 256) :=
    pathTo_mem_paths (idx_lower hpage) (by decide)
  exact Option.isSome_of_eq_some (hset.walk _ hpath (length_pathTo _ _).le t ht)

theorem Pagemap.Sets.small {v : ℕ} {e : BitVec 64} (h : pm.SmallWf st)
    (hset : pm.Sets (· < 256) v 3 e st st') : pm.SmallWf st' :=
  ⟨hset.wf, fun w hw => hset.clear w 3 hw le_rfl (h.clear w hw)⟩

/-- Setting the entry of a page. -/
theorem Pagemap.Sets.pte {q : ℕ} {e : BitVec 64} (hset : pm.Sets (· < 256) (q * psize) 3 e st st')
    (hq : q < lowerPages) (hpage : page < lowerPages) :
    pm.pte st' page = if page = q then e else pm.pte st page := by
  rw [Pagemap.pte]
  split
  · rename_i heq
    subst heq
    rw [hset.lookup_same _ rfl]
    split
    · rename_i he
      rw [he]
      rfl
    · rfl
  · rename_i hne
    rw [hset.lookup_other _ (idx_lower hpage) (fun h => hne ((pathTo_inj hpage hq).mp h)), Pagemap.pte]

/-- The entry in the table of the last level. -/
theorem Pagemap.pte_of_walk {t : ℕ} (hw : pm.walk st (pathTo (page * psize) 3) = some t) :
    st.mem t (idx (page * psize) 3) = pm.pte st page := by
  rw [Pagemap.pte, Pagemap.lookup_of_walk (by decide) hw (Or.inl rfl)]
  split
  · rename_i he
    rw [he]
    rfl
  · rfl

end

/-! ## The operations as updates of a range of entries -/

section Operations

variable {pm : Pagemap} {st st' : Tables}

/-- The entries of the `n` pages from `page` on are updated by `f`, and no table goes away. -/
structure Pagemap.Updates (pm : Pagemap) (page n : ℕ) (f : ℕ → BitVec 64 → BitVec 64)
    (st st' : Tables) : Prop where
  pte : ∀ q < lowerPages, pm.pte st' q =
    if page ≤ q ∧ q < page + n then f q (pm.pte st q) else pm.pte st q
  hasTable : ∀ q < lowerPages, pm.HasTable st q → pm.HasTable st' q
  grows : pm.Grows (· < 256) st st'

theorem Pagemap.Updates.refl (pm : Pagemap) (page : ℕ) (f : ℕ → BitVec 64 → BitVec 64)
    (st : Tables) : pm.Updates page 0 f st st :=
  ⟨fun q _ => (if_neg (by omega)).symm, fun _ _ => id, .of_walk rfl fun _ _ => rfl⟩

/-- One more page. -/
theorem Pagemap.Updates.succ {st₁ st₂ : Tables} {page n : ℕ} {f : ℕ → BitVec 64 → BitVec 64}
    (h : pm.Updates page n f st st₁) (hn : page + n < lowerPages)
    (hset : pm.Sets (· < 256) ((page + n) * psize) 3 (f (page + n) (pm.pte st₁ (page + n))) st₁ st₂) :
    pm.Updates page (n + 1) f st st₂ := by
  refine ⟨fun q hq => ?_, fun q hq hold => hset.hasTable hq (h.hasTable q hq hold),
    h.grows.trans (hset.grows rfl)⟩
  rw [hset.pte hn hq]
  by_cases hqn : q = page + n
  · subst hqn
    rw [if_pos rfl, if_pos (by omega), h.pte _ hq, if_neg (by omega)]
  · rw [if_neg hqn, h.pte q hq]
    exact if_congr (by omega) rfl rfl

theorem Pagemap.Updates.extends {st₁ st₂ : Tables} {page n : ℕ}
    {f : ℕ → BitVec 64 → BitVec 64} (h : pm.Updates page n f st st₁)
    (hext : pm.Extends (· < 256) st₁ st₂) : pm.Updates page n f st st₂ :=
  ⟨fun q hq => (hext.pte hq).trans (h.pte q hq),
    fun q hq hold => hext.hasTable hq (h.hasTable q hq hold), h.grows.trans hext.grows⟩

/-- The rule for the loops over small pages: every turn sets the next entry or, if the body may fail,
leaves the loop at a page without a table. A body that allocates leaves a table at every page, or runs
out of memory. -/
theorem Pagemap.SmallWf.loop (h : pm.SmallWf st) {page length : ℕ} (fails allocates : Prop)
    (body : ℕ → ℕ → Tables → Except Stop (Tables × Except Error Unit))
    (f : ℕ → BitVec 64 → BitVec 64)
    (hrange : page * psize + length ≤ 2 ^ 47)
    (hbody : ∀ k st, pm.SmallWf st → page + k < lowerPages →
      (∃ st', (∀ fuel, body fuel (k * psize) st = .ok (st', .ok ())) ∧
        pm.Sets (· < 256) ((page + k) * psize) 3 (f (page + k) (pm.pte st (page + k))) st st' ∧
        (allocates → pm.HasTable st' (page + k))) ∨
      (∃ st', (∀ fuel, body fuel (k * psize) st = .ok (st', .error .invalidEntry)) ∧
        pm.Extends (· < 256) st st' ∧ fails ∧ ¬ pm.HasTable st' (page + k)) ∨
      ((∀ fuel, body fuel (k * psize) st = .error .panic) ∧ allocates)) :
    (∃ st' r k, Returns (fun fuel => forPages psize length (body fuel) fuel 0 st) (st', r) ∧
      pm.SmallWf st' ∧ pm.Logs st st' ∧ pm.Updates page k f st st' ∧
      (allocates → ∀ i < k, pm.HasTable st' (page + i)) ∧
      ((r = .ok () ∧ k = turns psize length) ∨
        (r = .error .invalidEntry ∧ k < turns psize length ∧ fails ∧
          ¬ pm.HasTable st' (page + k)))) ∨
    (Stops (fun fuel => forPages psize length (body fuel) fuel 0 st) .panic ∧ allocates) := by
  have hpos : 0 < psize := by decide
  have hlen : length + psize ≤ 2 ^ 64 := by
    simp only [psize] at hrange ⊢
    omega
  have hlower : ∀ k, k * psize < length → page + k < lowerPages := by
    intro k hk
    simp only [psize, lowerPages] at hrange hk ⊢
    omega
  have hloop := forPages_rule body
    (fun k st' => pm.SmallWf st' ∧ pm.Logs st st' ∧ pm.Updates page k f st st' ∧
      (k ≤ turns psize length → allocates → ∀ i < k, pm.HasTable st' (page + i)))
    (fun k st' e => (e = .invalidEntry ∧ fails ∧ ¬ pm.HasTable st' (page + k)) ∧ pm.SmallWf st' ∧
      pm.Logs st st' ∧ pm.Updates page k f st st' ∧
      (allocates → ∀ i < k, pm.HasTable st' (page + i)))
    allocates hpos hlen ?_ ⟨h, .refl pm st, .refl pm page f st, fun _ _ i hi => absurd hi (Nat.not_lt_zero i)⟩
  · rcases hloop with ⟨st', hret, hwf, hlogs, hupd, htab⟩ |
      ⟨st', e, k, hk, hret, ⟨rfl, hfails, hno⟩, hwf, hlogs, hupd, htab⟩ | hpanic
    · exact Or.inl ⟨st', _, _, hret, hwf, hlogs, hupd, htab le_rfl, Or.inl ⟨rfl, rfl⟩⟩
    · exact Or.inl ⟨st', _, k, hret, hwf, hlogs, hupd, htab,
        Or.inr ⟨rfl, (lt_turns hpos).mpr hk, hfails, hno⟩⟩
    · exact Or.inr hpanic
  · rintro k st₁ hk ⟨hwf, hlogs, hupd, htab⟩
    have hlt := hlower k hk
    have hkt : k ≤ turns psize length := ((lt_turns hpos).mpr hk).le
    -- the tables of the pages before stay
    have hbefore : ∀ i < k, page + i < lowerPages := fun i hi => by omega
    rcases hbody k st₁ hwf hlt with
      ⟨st₂, hok, hset, hnew⟩ | ⟨st₂, herr, hext, hfails, hno⟩ | hpanic
    · refine Or.inl ⟨st₂, hok, hset.small hwf, hlogs.trans hset.logs, hupd.succ hlt hset, ?_⟩
      intro _ ha i hi
      rcases Nat.lt_succ_iff_lt_or_eq.mp hi with hi | rfl
      · exact hset.hasTable (hbefore i hi) (htab hkt ha i hi)
      · exact hnew ha
    · exact Or.inr (Or.inl ⟨st₂, _, herr, ⟨rfl, hfails, hno⟩, hext.small hwf,
        hlogs.trans hext.logs, hupd.extends hext,
        fun ha i hi => hext.hasTable (hbefore i hi) (htab hkt ha i hi)⟩)
    · exact Or.inr (Or.inr hpanic)

private theorem addr_eq {page k : ℕ} (h : page + k < lowerPages) :
    (page + k) * psize = (page * psize + k * psize) % 2 ^ 64 := by
  simp only [psize, lowerPages] at h ⊢
  rw [Nat.mod_eq_of_lt (by omega), Nat.add_mul]

theorem Pagemap.fixpsize_small (pm : Pagemap) : pm.fixpsize .small = .small := by
  rw [Pagemap.fixpsize, if_neg]
  rintro ⟨h, -⟩
  cases h

/-- `map` of small pages in the lower half. -/
theorem Pagemap.SmallWf.map (hpm : pm.FreshTables) (h : pm.SmallWf st) {page paddr length : ℕ}
    (hrange : page * psize + length ≤ 2 ^ 47) (flags : Pflag) (cache : Caching) :
    (∃ st', Returns (fun fuel => pm.map fuel (page * psize) paddr length flags .small cache st)
        (st', .ok ()) ∧
      pm.SmallWf st' ∧ pm.Logs st st' ∧
      pm.Updates page (turns psize length) (fun q _ =>
        mapEntry ((paddr + (q - page) * psize) % 2 ^ 64) (toArch flags cache .small)) st st' ∧
      ∀ i < turns psize length, pm.HasTable st' (page + i)) ∨
    Stops (fun fuel => pm.map fuel (page * psize) paddr length flags .small cache st) .panic := by
  have hmap : ∀ fuel, pm.map fuel (page * psize) paddr length flags .small cache st =
      forPages psize length (pm.mapPage fuel (page * psize) paddr .small
        (toArch flags cache .small)) fuel 0 st := by
    intro fuel
    rw [Pagemap.map, fixpsize_small]
    exact if_neg (not_not.mpr (Nat.mul_mod_left page psize))
  simp only [hmap]
  have hloop := h.loop False True
    (fun fuel => pm.mapPage fuel (page * psize) paddr .small (toArch flags cache .small))
    (fun q _ => mapEntry ((paddr + (q - page) * psize) % 2 ^ 64) (toArch flags cache .small))
    hrange (fun k st₁ hwf hk => by
      rcases hwf.wf.mapPage .small hpm (addr_eq hk) (idx_lower hk) (hwf.clear _ (idx_lower hk)) flags
        cache with ⟨st₂, hok, hset, htab⟩ | hpanic
      · refine Or.inl ⟨st₂, hok, ?_, fun _ => htab⟩
        rw [Nat.add_sub_cancel_left]
        exact hset
      · exact Or.inr (Or.inr ⟨hpanic, trivial⟩))
  rcases hloop with
    ⟨st', r, k, hret, hwf, hlogs, hupd, htab, ⟨rfl, rfl⟩ | ⟨-, -, hfalse, -⟩⟩ | ⟨hpanic, -⟩
  · exact Or.inl ⟨st', hret, hwf, hlogs, hupd, htab trivial⟩
  · exact hfalse.elim
  · exact Or.inr hpanic

/-- `unmap` of small pages in the lower half. -/
theorem Pagemap.SmallWf.unmap (h : pm.SmallWf st) {page length : ℕ}
    (hrange : page * psize + length ≤ 2 ^ 47) :
    ∃ st', Returns (fun fuel => pm.unmap fuel (page * psize) length .small st) (st', .ok ()) ∧
      pm.SmallWf st' ∧ pm.Logs st st' ∧
      pm.Updates page (turns psize length) (fun _ _ => 0#64) st st' := by
  have hunmap : ∀ fuel, pm.unmap fuel (page * psize) length .small st =
      forPages psize length (pm.unmapPage (page * psize) .small) fuel 0 st := by
    intro fuel
    rw [Pagemap.unmap, fixpsize_small]
    exact if_neg (not_not.mpr (Nat.mul_mod_left page psize))
  simp only [hunmap]
  obtain ⟨st', r, k, hret, hwf, hlogs, hupd, -, ⟨rfl, rfl⟩ | ⟨-, -, hfalse, -⟩⟩ | ⟨-, hfalse⟩ :=
    h.loop False False (fun _ => pm.unmapPage (page * psize) .small) (fun _ _ => 0#64) hrange
    (fun k st₁ hwf hk => by
      obtain ⟨st₂, hok, hset⟩ := hwf.wf.unmapPage .small (addr_eq hk) (idx_lower hk)
        (hwf.clear _ (idx_lower hk))
      exact Or.inl ⟨st₂, fun _ => hok, hset, False.elim⟩)
  · exact ⟨st', hret, hwf, hlogs, hupd⟩
  · exact hfalse.elim
  · exact hfalse.elim

/-- `protect` of small pages in the lower half: it stops at the first page without a table. -/
theorem Pagemap.SmallWf.protect (h : pm.SmallWf st) {page length : ℕ}
    (hrange : page * psize + length ≤ 2 ^ 47) (flags : Pflag) (cache : Caching) :
    ∃ st' r k, Returns (fun fuel => pm.protect fuel (page * psize) length flags .small cache st)
        (st', r) ∧
      pm.SmallWf st' ∧ pm.Logs st st' ∧
      pm.Updates page k (fun _ e => protectEntry e (toArch flags cache .small)) st st' ∧
      ((r = .ok () ∧ k = turns psize length) ∨
        (r = .error .invalidEntry ∧ k < turns psize length ∧ ¬ pm.HasTable st' (page + k))) := by
  have hprotect : ∀ fuel, pm.protect fuel (page * psize) length flags .small cache st =
      forPages psize length (pm.protectPage (page * psize) .small (toArch flags cache .small))
        fuel 0 st := by
    intro fuel
    rw [Pagemap.protect, fixpsize_small]
    exact if_neg (not_not.mpr (Nat.mul_mod_left page psize))
  simp only [hprotect]
  obtain ⟨st', r, k, hret, hwf, hlogs, hupd, -, hres⟩ | ⟨-, hfalse⟩ := h.loop True False
    (fun _ => pm.protectPage (page * psize) .small (toArch flags cache .small))
    (fun _ e => protectEntry e (toArch flags cache .small)) hrange
    (fun k st₁ hwf hk => by
      rcases hwf.wf.protectPage .small (addr_eq hk) (idx_lower hk)
        (hwf.clear _ (idx_lower hk)) flags cache with ⟨st₂, t, hw, hok, hset, -⟩ | ⟨st₂, hw, hext, herr⟩
      · refine Or.inl ⟨st₂, fun _ => hok, ?_, False.elim⟩
        rw [← pte_of_walk hw]
        exact hset
      · refine Or.inr (Or.inl ⟨st₂, fun _ => herr, hext, trivial, fun hsome => ?_⟩)
        rw [HasTable, show pm.walk st₂ (pathTo ((page + k) * psize) 3) = none from hw] at hsome
        cases hsome)
  · exact ⟨st', r, k, hret, hwf, hlogs, hupd,
      hres.imp_right fun hr => ⟨hr.1, hr.2.1, hr.2.2.2⟩⟩
  · exact hfalse.elim

/-- `protect` makes no new tables. It succeeds if there is a table at every page of the range, and else
fails. -/
theorem Pagemap.SmallWf.protect_tables (h : pm.SmallWf st) {page length : ℕ}
    (hrange : page * psize + length ≤ 2 ^ 47) (flags : Pflag) (cache : Caching) :
    (∃ st', Returns (fun fuel => pm.protect fuel (page * psize) length flags .small cache st)
        (st', .ok ()) ∧
      (∀ q < lowerPages, pm.HasTable st' q ↔ pm.HasTable st q) ∧
      ∀ i < turns psize length, pm.HasTable st (page + i)) ∨
    ∃ st' err, Returns (fun fuel => pm.protect fuel (page * psize) length flags .small cache st)
        (st', .error err) ∧
      ∃ i < turns psize length, ¬ pm.HasTable st (page + i) := by
  have hprotect : ∀ fuel, pm.protect fuel (page * psize) length flags .small cache st =
      forPages psize length (pm.protectPage (page * psize) .small (toArch flags cache .small))
        fuel 0 st := by
    intro fuel
    rw [Pagemap.protect, fixpsize_small]
    exact if_neg (not_not.mpr (Nat.mul_mod_left page psize))
  simp only [hprotect]
  have hlen : length + psize ≤ 2 ^ 64 := by
    simp only [psize] at hrange ⊢
    omega
  -- the tables at the last level stay the same all along
  have hloop := forPages_rule
    (fun _ => pm.protectPage (page * psize) .small (toArch flags cache .small))
    (fun k st₁ => pm.SmallWf st₁ ∧
      (∀ p ∈ paths (· < 256), p.length ≤ 3 → pm.walk st₁ p = pm.walk st p) ∧
      (k ≤ turns psize length → ∀ i < k, pm.HasTable st (page + i)))
    (fun k _ _ => ¬ pm.HasTable st (page + k)) False (by decide) hlen ?_
    ⟨h, fun _ _ _ => rfl, fun _ i hi => absurd hi (Nat.not_lt_zero i)⟩
  · obtain ⟨st₁, hok, -, hwalk, htables⟩ | ⟨st₁, err, k, hk, herr, hnone⟩ | ⟨-, hfalse⟩ := hloop
    · refine Or.inl ⟨st₁, hok, fun q hq => ?_, htables le_rfl⟩
      have hpath : pathTo (q * psize) 3 ∈ paths (· < 256) :=
        pathTo_mem_paths (idx_lower hq) (by decide)
      rw [HasTable, HasTable, hwalk _ hpath (length_pathTo _ _).le]
    · exact Or.inr ⟨st₁, err, herr, k, (lt_turns (by decide)).mpr hk, hnone⟩
    · exact hfalse.elim
  · rintro k st₁ hk ⟨hwf, hwalk, htab⟩
    have hlt : page + k < lowerPages := by
      simp only [psize, lowerPages] at hrange hk ⊢
      omega
    have hpath : pathTo ((page + k) * psize) 3 ∈ paths (· < 256) :=
      pathTo_mem_paths (idx_lower hlt) (by decide)
    rcases hwf.wf.protectPage .small (addr_eq hlt) (idx_lower hlt)
      (hwf.clear _ (idx_lower hlt)) flags cache with
        ⟨st₂, t, hw, hok, hset, hsame⟩ | ⟨st₂, hw, hext, herr⟩
    · refine Or.inl ⟨st₂, fun _ => hok, hset.small hwf,
        fun p hp hp3 => (hsame p hp hp3).trans (hwalk p hp hp3), fun _ i hi => ?_⟩
      rcases Nat.lt_succ_iff_lt_or_eq.mp hi with hi | rfl
      · exact htab ((lt_turns (by decide)).mpr hk).le i hi
      · rw [HasTable, ← hwalk _ hpath (length_pathTo _ _).le]
        exact Option.isSome_of_eq_some hw
    · refine Or.inr (Or.inl ⟨st₂, _, fun _ => herr, fun hsome => ?_⟩)
      rw [HasTable, ← hwalk _ hpath (length_pathTo _ _).le] at hsome
      obtain ⟨t, ht⟩ := Option.isSome_iff_exists.mp hsome
      have hnone : pm.walk st₂ (pathTo ((page + k) * psize) 3) = none := hw
      rw [hext.walk _ hpath t ht] at hnone
      cases hnone

/-- `translate` in the lower half. -/
theorem Pagemap.SmallWf.translate (h : pm.SmallWf st) {page : ℕ} (hpage : page < lowerPages)
    (hcanon : isCanonical (getaddr (pm.pte st page)) = true) :
    ∃ st' r, pm.translate (page * psize) .small st = .ok (st', r) ∧ pm.Extends (· < 256) st st' ∧
      (r = .ok (getaddr (pm.pte st page)) ∨ (r = .error .invalidEntry ∧ ¬ pm.HasTable st page)) := by
  have haligned : ¬ page * psize % fromPageSize .small ≠ 0 :=
    not_not.mpr (Nat.mul_mod_left page psize)
  obtain ⟨st₁, hext, hmem, ⟨t, hw, hget⟩ | ⟨hw, hget⟩⟩ :=
    h.wf.getpte_walk .small (h.clear _ (idx_lower hpage))
  · refine ⟨st₁, .ok (getaddr (pm.pte st page)), ?_, hext, Or.inl rfl⟩
    rw [Pagemap.translate, fixpsize_small, if_neg haligned, hget]
    simp only [hmem]
    rw [show depth .small = 3 from rfl, pte_of_walk hw, hcanon]
    rfl
  · refine ⟨st₁, .error .invalidEntry, ?_, hext, Or.inr ⟨rfl, fun hsome => ?_⟩⟩
    · rw [Pagemap.translate, fixpsize_small, if_neg haligned, hget]
    · rw [HasTable, show pm.walk st (pathTo (page * psize) 3) = none from hw] at hsome
      cases hsome

/-- `translate` changes no entry, whatever it returns. -/
theorem Pagemap.SmallWf.translate_extends (h : pm.SmallWf st) {page : ℕ} (hpage : page < lowerPages)
    {r : Except Error ℕ} (htr : pm.translate (page * psize) .small st = .ok (st', r)) :
    pm.Extends (· < 256) st st' := by
  have haligned : ¬ page * psize % fromPageSize .small ≠ 0 :=
    not_not.mpr (Nat.mul_mod_left page psize)
  rw [Pagemap.translate, fixpsize_small, if_neg haligned] at htr
  obtain ⟨st₁, hext, -, ⟨t, -, hget⟩ | ⟨-, hget⟩⟩ :=
    h.wf.getpte_walk .small (h.clear _ (idx_lower hpage))
  · rw [hget] at htr
    dsimp only at htr
    split at htr
    · cases htr
      exact hext
    · cases htr
      exact hext
  · rw [hget] at htr
    cases htr
    exact hext

end Operations

end Ilobilix.Vmm
