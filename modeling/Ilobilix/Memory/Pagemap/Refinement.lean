import Ilobilix.Memory.Pagemap.Small

/-!
# A page map refines a map from pages to frames

`FrameMap` is what a page map with small pages is for: a map from pages to frames and flags, with
operations that set, remove or re-flag a range of pages. The only freedom it has is that `protect` may
stop with an error at a page that is not mapped, and that translating such a page gives zero or an
error.

`pagemap_refines`: whatever a run of a page map returns, the same calls with the same results are a
run of the `FrameMap` that its tables stand for.
-/

namespace Ilobilix.Vmm

/-! ## The abstract map -/

/-- The frame and the flags of each mapped page. -/
def FrameMap : Type := ℕ → Option (ℕ × BitVec 64)

namespace FrameMap

/-- `n` pages from `page` on are mapped to the frames from `paddr` on. -/
def mapRange (m : FrameMap) (page n paddr : ℕ) (aflags : BitVec 64) : FrameMap := fun q =>
  if page ≤ q ∧ q < page + n then some (paddr + (q - page) * psize, aflags) else m q

/-- `n` pages from `page` on are unmapped. -/
def unmapRange (m : FrameMap) (page n : ℕ) : FrameMap := fun q =>
  if page ≤ q ∧ q < page + n then none else m q

/-- The mapped ones of `n` pages from `page` on get other flags. -/
def protectRange (m : FrameMap) (page n : ℕ) (aflags : BitVec 64) : FrameMap := fun q =>
  if page ≤ q ∧ q < page + n then (m q).map fun e => (e.1, aflags) else m q

end FrameMap

/-! ## The two systems -/

/-- The calls of a run with `page_size::small`. -/
inductive SmallOp
  | map (vaddr paddr length : ℕ) (flags : Pflag) (cache : Caching)
  | unmap (vaddr length : ℕ)
  | protect (vaddr length : ℕ) (flags : Pflag) (cache : Caching)
  | translate (vaddr : ℕ)

/-- What a call returns when it succeeds. -/
abbrev SmallOp.Result : SmallOp → Type
  | .translate _ => ℕ
  | _ => Unit

/-- Page-aligned addresses, ranges of the lower half and frames below `2 ^ 47`. -/
def SmallOp.Allowed : SmallOp → Prop
  | .map vaddr paddr length _ _ =>
      psize ∣ vaddr ∧ vaddr + length ≤ 2 ^ 47 ∧ psize ∣ paddr ∧ paddr + length ≤ 2 ^ 47
  | .unmap vaddr length => psize ∣ vaddr ∧ vaddr + length ≤ 2 ^ 47
  | .protect vaddr length _ _ => psize ∣ vaddr ∧ vaddr + length ≤ 2 ^ 47
  | .translate vaddr => psize ∣ vaddr ∧ vaddr < 2 ^ 47

/-- A call of the page map returns with this result. -/
def Pagemap.Call (pm : Pagemap) (st : Tables) : (op : SmallOp) → Except Error op.Result → Tables → Prop
  | .map vaddr paddr length flags cache, r, st' =>
      Returns (fun fuel => pm.map fuel vaddr paddr length flags .small cache st) (st', r)
  | .unmap vaddr length, r, st' =>
      Returns (fun fuel => pm.unmap fuel vaddr length .small st) (st', r)
  | .protect vaddr length flags cache, r, st' =>
      Returns (fun fuel => pm.protect fuel vaddr length flags .small cache st) (st', r)
  | .translate vaddr, r, st' => pm.translate vaddr .small st = .ok (st', r)

/-- The only call that may not return is a `map` that finds no memory for its tables. -/
def Pagemap.OutOfMemory (pm : Pagemap) (st : Tables) : SmallOp → Prop
  | .map vaddr paddr length flags cache =>
      Stops (fun fuel => pm.map fuel vaddr paddr length flags .small cache st) .panic
  | _ => False

/-- A call of the abstract map returns with this result. -/
def FrameMap.Call (m : FrameMap) : (op : SmallOp) → Except Error op.Result → FrameMap → Prop
  | .map vaddr paddr length flags cache, r, m' => r = .ok () ∧
      m' = m.mapRange (vaddr / psize) (turns psize length) paddr (toArch flags cache .small)
  | .unmap vaddr length, r, m' => r = .ok () ∧
      m' = m.unmapRange (vaddr / psize) (turns psize length)
  | .protect vaddr length flags cache, r, m' => ∃ k,
      m' = m.protectRange (vaddr / psize) k (toArch flags cache .small) ∧
      ((r = .ok () ∧ k = turns psize length) ∨
        (r = .error .invalidEntry ∧ k < turns psize length ∧ m (vaddr / psize + k) = none))
  | .translate vaddr, r, m' => m' = m ∧
      match m (vaddr / psize) with
      | some e => r = .ok e.1
      | none => r = .ok 0 ∨ ∃ err, r = .error err

/-- The runs of a page map whose lower half starts empty. -/
def Pagemap.smallSystem (pm : Pagemap) :
    TransitionSystem Tables ((op : SmallOp) × Except Error op.Result) where
  init st := ∀ j < 256, st.mem pm.table j = 0#64
  step st l st' := l.1.Allowed ∧ pm.Call st l.1 l.2 st'

/-- The runs of the abstract map. -/
def FrameMap.system : TransitionSystem FrameMap ((op : SmallOp) × Except Error op.Result) where
  init m := ∀ q, m q = none
  step m l m' := m.Call l.1 l.2 m'

/-! ## Refinement -/

/-- `getflags()`. -/
def flagsOf (value : BitVec 64) : BitVec 64 := value &&& ~~~paMask

private theorem and_not_of_and_eq_zero {a m : BitVec 64} (h : a &&& m = 0#64) : a &&& ~~~m = a := by
  ext i hi
  have hbit : (a &&& m)[i] = (0#64)[i] := by rw [h]
  simp only [BitVec.getElem_and, BitVec.getElem_not, BitVec.getElem_zero] at hbit ⊢
  cases ha : a[i] <;> cases hm : m[i] <;> simp_all

private theorem flagsOf_setflags {value aflags : BitVec 64} (hvalue : value &&& ~~~paMask = 0#64)
    (h : aflags &&& paMask = 0#64) : flagsOf (setflags value aflags) = aflags := by
  rw [flagsOf, setflags, BitVec.and_or_distrib_right, hvalue, BitVec.zero_or,
    and_not_of_and_eq_zero h]

private theorem and_mask_and_not (x m : BitVec 64) : (x &&& m) &&& ~~~m = 0#64 := by
  ext i hi
  simp only [BitVec.getElem_and, BitVec.getElem_not, BitVec.getElem_zero]
  cases m[i] <;> simp

theorem flagsOf_mapEntry {paddr : ℕ} {aflags : BitVec 64} (h : aflags &&& paMask = 0#64) :
    flagsOf (mapEntry paddr aflags) = aflags := by
  refine flagsOf_setflags ?_ h
  rw [setaddr, BitVec.zero_and, BitVec.zero_or, and_mask_and_not]

theorem flagsOf_protectEntry {e aflags : BitVec 64} (h : aflags &&& paMask = 0#64) :
    flagsOf (protectEntry e aflags) = aflags :=
  flagsOf_setflags (and_mask_and_not e paMask) h

theorem getaddr_protectEntry {e aflags : BitVec 64} (h : aflags &&& paMask = 0#64) :
    getaddr (protectEntry e aflags) = getaddr e := by
  rw [protectEntry, getaddr_setflags h, getaddr_clearflags]

/-- The entry of a page holds its frame and flags; a page that is not mapped has no frame. -/
def EntryFor (e : BitVec 64) : Option (ℕ × BitVec 64) → Prop
  | some (frame, flags) => getaddr e = frame ∧ flagsOf e = flags ∧ frame < 2 ^ 47
  | none => getaddr e = 0

/-- The tables stand for the abstract map. -/
structure Pagemap.Refines (pm : Pagemap) (st : Tables) (m : FrameMap) : Prop where
  small : pm.SmallWf st
  entry : ∀ q < lowerPages, EntryFor (pm.pte st q) (m q)
  hasTable : ∀ q < lowerPages, (m q).isSome → pm.HasTable st q

section

variable {pm : Pagemap} {st : Tables} {m : FrameMap}

/-- An empty lower half is well formed and maps nothing. -/
theorem Pagemap.SmallWf.of_empty (h : ∀ j < 256, st.mem pm.table j = 0#64) :
    pm.SmallWf st ∧ ∀ q < lowerPages, pm.pte st q = 0#64 := by
  have hnil : ∀ p ∈ paths (· < 256), ∀ t, pm.walk st p = some t → p = [] ∧ t = pm.table := by
    rintro (- | ⟨i, p⟩) hp t hw
    · exact ⟨rfl, (Option.some.inj hw).symm⟩
    · rw [Pagemap.walk, Radix.walk, h i (hp.2 i rfl)] at hw
      cases hw
  refine ⟨⟨⟨⟨?_⟩, ?_⟩, ?_⟩, ?_⟩
  · intro p hp q hq t hwp hwq
    rw [(hnil p hp t hwp).1, (hnil q hq t hwq).1]
  · exact fun p hp t hw => Or.inl (hnil p hp t hw).2
  · exact fun v hv => Or.inl (h _ hv)
  · intro q hq
    have hslot : Radix.slot tableOf st.mem pm.table (pathTo (q * psize) levels) =
        some ([idx (q * psize) 1, idx (q * psize) 2, idx (q * psize) 3], 0#64) := by
      rw [pathTo_levels, Radix.slot, h _ (idx_lower hq)]
      rfl
    rw [Pagemap.pte, Pagemap.lookup, Radix.lookup, hslot]
    rfl

/-- An address below `2 ^ 47` is canonical. -/
theorem isCanonical_of_lt {a : ℕ} (h : a < 2 ^ 47) : isCanonical a = true := by
  simp only [isCanonical, Bool.or_eq_true, decide_eq_true_eq]
  omega

theorem EntryFor.canonical {e : BitVec 64} {o : Option (ℕ × BitVec 64)} (h : EntryFor e o) :
    isCanonical (getaddr e) = true := by
  rcases o with - | ⟨frame, flags⟩
  · rw [EntryFor] at h
    rw [h]
    rfl
  · rw [h.1]
    exact isCanonical_of_lt h.2.2

/-- An update of a range of entries, page by page. -/
theorem Pagemap.Refines.updates (h : pm.Refines st m) {st' : Tables} {m' : FrameMap} {page n : ℕ}
    {f : ℕ → BitVec 64 → BitVec 64} (hwf : pm.SmallWf st') (hupd : pm.Updates page n f st st')
    (hin : ∀ q, page ≤ q ∧ q < page + n → EntryFor (pm.pte st q) (m q) →
      EntryFor (f q (pm.pte st q)) (m' q))
    (hnew : ∀ q, page ≤ q ∧ q < page + n → (m' q).isSome → (m q).isSome ∨ pm.HasTable st' q)
    (hout : ∀ q, ¬ (page ≤ q ∧ q < page + n) → m' q = m q) : pm.Refines st' m' := by
  refine ⟨hwf, fun q hq => ?_, fun q hq hsome => ?_⟩
  · rw [hupd.pte q hq]
    split
    · rename_i hrange
      exact hin q hrange (h.entry q hq)
    · rename_i hrange
      rw [hout q hrange]
      exact h.entry q hq
  · by_cases hrange : page ≤ q ∧ q < page + n
    · exact (hnew q hrange hsome).elim (fun hm => hupd.hasTable q hq (h.hasTable q hq hm)) id
    · rw [hout q hrange] at hsome
      exact hupd.hasTable q hq (h.hasTable q hq hsome)

theorem Pagemap.Refines.map (hpm : pm.FreshTables) (h : pm.Refines st m) {page paddr length : ℕ}
    (hrange : page * psize + length ≤ 2 ^ 47) (hp : psize ∣ paddr) (hpr : paddr + length ≤ 2 ^ 47)
    (flags : Pflag) (cache : Caching) :
    (∃ st', Returns (fun fuel => pm.map fuel (page * psize) paddr length flags .small cache st)
        (st', .ok ()) ∧
      pm.Refines st' (m.mapRange page (turns psize length) paddr (toArch flags cache .small))) ∨
    Stops (fun fuel => pm.map fuel (page * psize) paddr length flags .small cache st) .panic := by
  refine (h.small.map hpm hrange flags cache).imp_left ?_
  rintro ⟨st', hret, hwf, -, hupd, htab⟩
  refine ⟨st', hret, h.updates hwf hupd ?_ ?_ fun q hq => if_neg hq⟩
  · intro q hq _
    have hk : (q - page) * psize < length := (lt_turns (by decide)).mp (by omega)
    have hlt : paddr + (q - page) * psize < 2 ^ 47 := by omega
    have hdvd : psize ∣ paddr + (q - page) * psize := Nat.dvd_add hp (Nat.dvd_mul_left _ _)
    rw [FrameMap.mapRange, if_pos hq]
    refine ⟨?_, flagsOf_mapEntry (toArch_small_paMask flags cache), hlt⟩
    rw [Nat.mod_eq_of_lt (hlt.trans (by decide))]
    exact getaddr_mk hdvd (hlt.trans (by decide)) (toArch_small_paMask flags cache)
  · intro q hq _
    obtain ⟨i, rfl⟩ := Nat.exists_eq_add_of_le hq.1
    exact Or.inr (htab i (by omega))

theorem Pagemap.Refines.unmap (h : pm.Refines st m) {page length : ℕ}
    (hrange : page * psize + length ≤ 2 ^ 47) :
    ∃ st', Returns (fun fuel => pm.unmap fuel (page * psize) length .small st) (st', .ok ()) ∧
      pm.Refines st' (m.unmapRange page (turns psize length)) := by
  obtain ⟨st', hret, hwf, -, hupd⟩ := h.small.unmap hrange
  refine ⟨st', hret, h.updates hwf hupd ?_ ?_ fun q hq => if_neg hq⟩
  · intro q hq _
    rw [FrameMap.unmapRange, if_pos hq]
    exact getaddr_zero
  · intro q hq hsome
    rw [FrameMap.unmapRange, if_pos hq] at hsome
    cases hsome

theorem Pagemap.Refines.protect (h : pm.Refines st m) {page length : ℕ}
    (hrange : page * psize + length ≤ 2 ^ 47) (flags : Pflag) (cache : Caching) :
    ∃ st' r k, Returns (fun fuel => pm.protect fuel (page * psize) length flags .small cache st)
        (st', r) ∧
      pm.Refines st' (m.protectRange page k (toArch flags cache .small)) ∧
      ((r = .ok () ∧ k = turns psize length) ∨
        (r = .error .invalidEntry ∧ k < turns psize length ∧ m (page + k) = none)) := by
  obtain ⟨st', r, k, hret, hwf, -, hupd, hres⟩ := h.small.protect hrange flags cache
  have hflags := toArch_small_paMask flags cache
  refine ⟨st', r, k, hret, h.updates hwf hupd ?_ ?_ fun q hq => if_neg hq, ?_⟩
  · intro q hq hentry
    rw [FrameMap.protectRange, if_pos hq]
    cases hm : m q with
    | none =>
        rw [hm] at hentry
        exact (getaddr_protectEntry hflags).trans hentry
    | some e =>
        rw [hm] at hentry
        exact ⟨(getaddr_protectEntry hflags).trans hentry.1, flagsOf_protectEntry hflags, hentry.2.2⟩
  · intro q hq hsome
    rw [FrameMap.protectRange, if_pos hq, Option.isSome_map] at hsome
    exact Or.inl hsome
  · refine hres.imp_right fun ⟨hr, hk, hno⟩ => ⟨hr, hk, ?_⟩
    have hlt : page + k < lowerPages := by
      have := (lt_turns (k := k) (by decide)).mp hk
      simp only [psize, lowerPages] at this hrange ⊢
      omega
    by_contra hsome
    exact hno (hupd.hasTable _ hlt (h.hasTable _ hlt (Option.isSome_iff_ne_none.mpr hsome)))

theorem Pagemap.Refines.translate (h : pm.Refines st m) {page : ℕ} (hpage : page < lowerPages) :
    ∃ st' r, pm.translate (page * psize) .small st = .ok (st', r) ∧ pm.Refines st' m ∧
      match m page with
      | some e => r = .ok e.1
      | none => r = .ok 0 ∨ ∃ err, r = .error err := by
  have hentry := h.entry page hpage
  obtain ⟨st', r, heq, hext, hres⟩ := h.small.translate hpage hentry.canonical
  refine ⟨st', r, heq, ⟨hext.small h.small, fun q hq => ?_, fun q hq hsome => ?_⟩, ?_⟩
  · rw [hext.pte hq]
    exact h.entry q hq
  · exact hext.hasTable hq (h.hasTable q hq hsome)
  · cases hm : m page with
    | none =>
        rw [hm, EntryFor] at hentry
        rcases hres with rfl | ⟨rfl, -⟩
        · exact Or.inl (by rw [hentry])
        · exact Or.inr ⟨_, rfl⟩
    | some e =>
        rw [hm] at hentry
        rcases hres with rfl | ⟨rfl, hno⟩
        · exact congrArg Except.ok hentry.1
        · exact absurd (h.hasTable page hpage (by rw [hm]; rfl)) hno

/-- A call within the contract returns unless memory is exhausted, and the abstract map can return the
same. -/
theorem Pagemap.Refines.call (hpm : pm.FreshTables) (h : pm.Refines st m) {op : SmallOp}
    (hop : op.Allowed) :
    (∃ r st' m', pm.Call st op r st' ∧ m.Call op r m' ∧ pm.Refines st' m') ∨
      pm.OutOfMemory st op := by
  have hpos : 0 < psize := by decide
  cases op with
  | map vaddr paddr length flags cache =>
      obtain ⟨⟨page, rfl⟩, hrange, hp, hpr⟩ := hop
      rw [Nat.mul_comm] at hrange ⊢
      refine (h.map hpm hrange hp hpr flags cache).imp_left ?_
      rintro ⟨st', hret, href⟩
      exact ⟨.ok (), st', _, hret, ⟨rfl, rfl⟩, by rwa [Nat.mul_div_cancel page hpos]⟩
  | unmap vaddr length =>
      obtain ⟨⟨page, rfl⟩, hrange⟩ := hop
      rw [Nat.mul_comm] at hrange ⊢
      obtain ⟨st', hret, href⟩ := h.unmap hrange
      exact Or.inl ⟨.ok (), st', _, hret, ⟨rfl, rfl⟩, by rwa [Nat.mul_div_cancel page hpos]⟩
  | protect vaddr length flags cache =>
      obtain ⟨⟨page, rfl⟩, hrange⟩ := hop
      rw [Nat.mul_comm] at hrange ⊢
      obtain ⟨st', r, k, hret, href, hres⟩ := h.protect hrange flags cache
      refine Or.inl ⟨r, st', _, hret, ⟨k, rfl, ?_⟩, by rwa [Nat.mul_div_cancel page hpos]⟩
      rwa [Nat.mul_div_cancel page hpos]
  | translate vaddr =>
      obtain ⟨⟨page, rfl⟩, hrange⟩ := hop
      have hpage : page < lowerPages := by
        simp only [psize, lowerPages] at hrange ⊢
        omega
      obtain ⟨st', r, hret, href, hres⟩ := h.translate hpage
      rw [Nat.mul_comm]
      refine Or.inl ⟨r, st', m, hret, ⟨rfl, ?_⟩, href⟩
      rwa [Nat.mul_div_cancel page hpos]

/-- A call has one result. -/
theorem Pagemap.Call.unique {op : SmallOp} {r₁ r₂ : Except Error op.Result} {s₁ s₂ : Tables}
    (h₁ : pm.Call st op r₁ s₁) (h₂ : pm.Call st op r₂ s₂) : r₁ = r₂ ∧ s₁ = s₂ := by
  cases op with
  | map _ _ _ _ _ => exact (Prod.mk.inj (Returns.unique h₁ h₂)).symm
  | unmap _ _ => exact (Prod.mk.inj (Returns.unique h₁ h₂)).symm
  | protect _ _ _ _ => exact (Prod.mk.inj (Returns.unique h₁ h₂)).symm
  | translate _ => exact (Prod.mk.inj (Except.ok.inj (Eq.trans (Eq.symm h₁) h₂))).symm

/-- A call that returns did not run out of memory. -/
theorem Pagemap.Call.not_outOfMemory {op : SmallOp} {r : Except Error op.Result} {st' : Tables}
    (h : pm.Call st op r st') : ¬ pm.OutOfMemory st op := by
  cases op with
  | map _ _ _ _ _ => exact h.not_stops
  | unmap _ _ => exact id
  | protect _ _ _ _ => exact id
  | translate _ => exact id

end

/-- Every run of a page map with small pages in the lower half is, with the same results, a run of the
map from pages to frames and flags that its tables stand for; and every call within the contract
returns, unless memory is exhausted. -/
theorem pagemap_refines {pm : Pagemap} (hpm : pm.FreshTables)
    {tr : List ((op : SmallOp) × Except Error op.Result)} {st : Tables}
    (h : pm.smallSystem.Run tr st) :
    (∃ m, FrameMap.system.Run tr m ∧ pm.Refines st m) ∧
      ∀ op : SmallOp, op.Allowed → (∃ r st', pm.Call st op r st') ∨ pm.OutOfMemory st op := by
  have hsim : ∃ m, FrameMap.system.Run tr m ∧ pm.Refines st m := by
    refine h.simulates (fun st hst => ?_) ?_
    · obtain ⟨hwf, hpte⟩ := Pagemap.SmallWf.of_empty hst
      refine ⟨fun _ => none, fun _ => rfl, hwf, fun q hq => ?_, fun q _ hsome => by cases hsome⟩
      rw [hpte q hq]
      rfl
    · rintro st m ⟨op, r⟩ st' href ⟨hop, hcall⟩
      obtain ⟨r', st'', m', hcall', hm', href'⟩ :=
        (href.call hpm hop).resolve_right hcall.not_outOfMemory
      obtain ⟨rfl, rfl⟩ := hcall.unique hcall'
      exact ⟨m', hm', href'⟩
  refine ⟨hsim, fun op hop => ?_⟩
  obtain ⟨m, -, href⟩ := hsim
  refine (href.call hpm hop).imp_left ?_
  rintro ⟨r, st', -, hcall, -⟩
  exact ⟨r, st', hcall⟩

/-- A machine with the root table at 4 KiB and 1000 pages for further tables above it. -/
def exampleMachine : Pagemap where
  table := 0x1000
  newTable k := if k < 1000 then some (0x2000 + 0x1000 * k) else none
  largePages := true

theorem exampleMachine_freshTables : exampleMachine.FreshTables := by
  have hsome : ∀ k t, exampleMachine.newTable k = some t → k < 1000 ∧ t = 0x2000 + 0x1000 * k := by
    intro k t h
    rw [exampleMachine] at h
    dsimp only at h
    split at h
    · exact ⟨‹_›, (Option.some.inj h).symm⟩
    · cases h
  refine ⟨fun k t h => ?_, fun k t h => ?_, fun j k t hj hk => ?_, fun k h => ?_⟩
  · obtain ⟨-, rfl⟩ := hsome k t h
    exact ⟨2 + k, by omega⟩
  · obtain ⟨hk, rfl⟩ := hsome k t h
    omega
  · have := (hsome j t hj).2
    have := (hsome k t hk).2
    omega
  · have : (0x1000 : ℕ) = _ := (hsome k _ h).2
    omega

/-- The empty tables. -/
def Tables.empty : Tables := ⟨fun _ _ => 0#64, 0, [], []⟩

/-- One more call. -/
private theorem run_call {pm : Pagemap} {tr : List ((op : SmallOp) × Except Error op.Result)}
    {s t : Tables} (h : pm.smallSystem.Run tr s) (o : SmallOp) (r : Except Error o.Result)
    (hop : o.Allowed) (hcall : pm.Call s o r t) : pm.smallSystem.Run (tr ++ [⟨o, r⟩]) t :=
  h.step ⟨hop, hcall⟩

theorem pagemap_refines_map_translate : ∃ st,
    (∃ m, FrameMap.system.Run [⟨.map 0x400000 0x7000 0x2000 Pflag.rw .writeBack, .ok ()⟩,
      ⟨.translate 0x401000, .ok 0x8000⟩] m ∧ exampleMachine.Refines st m) ∧
    ∃ r st', exampleMachine.Call st (.unmap 0x400000 0x1000) r st' := by
  have h₀ : exampleMachine.smallSystem.Run [] Tables.empty := .init fun _ _ => rfl
  have h₁ := run_call h₀ (.map 0x400000 0x7000 0x2000 Pflag.rw .writeBack) (.ok ())
    (by simp only [SmallOp.Allowed]; decide) ⟨5, fun fuel hfuel => by
      obtain ⟨n, rfl⟩ := Nat.exists_eq_add_of_le' hfuel
      rfl⟩
  have h₂ := run_call h₁ (.translate 0x401000) (.ok 0x8000)
    (by simp only [SmallOp.Allowed]; decide) rfl
  obtain ⟨hrefines, hcalls⟩ := pagemap_refines exampleMachine_freshTables h₂
  have hunmap := hcalls (.unmap 0x400000 0x1000) (by simp only [SmallOp.Allowed]; decide)
  exact ⟨_, hrefines, hunmap.resolve_right id⟩

end Ilobilix.Vmm
