import Ilobilix.Foundation.Except
import Ilobilix.Memory.Pagemap.Mixed

/-!
# Runs of a page map with mixed page sizes

The runs of `map`, `unmap`, `protect` and `translate` with any page sizes, from an empty root table or
from the one that the constructor of the kernel page map leaves. `Safe` is the condition on a call in
the state before it, and `mixed_pages_safe` the result: in a run of safe calls `getlvl` never follows
the entry of a large page, entries are only written to tables, and the hardware walk finds the frame
mapped last.

`vmm::init` is such a run, but not one of safe calls: `init_follows_leaf`.
-/

namespace Ilobilix.Vmm

open Lib

/-- The calls of a run. -/
inductive Op
  | map (vaddr paddr length : ℕ) (flags : Pflag) (psize : PageSize) (cache : Caching)
  | unmap (vaddr length : ℕ) (psize : PageSize)
  | protect (vaddr length : ℕ) (flags : Pflag) (psize : PageSize) (cache : Caching)
  | translate (vaddr : ℕ) (psize : PageSize)

/-- What a call returns when it succeeds. -/
abbrev Op.Result : Op → Type
  | .translate _ _ => ℕ
  | _ => Unit

/-- A call of the page map returns with this result. -/
def Pagemap.OpCall (pm : Pagemap) (st : Tables) : (op : Op) → Except Error op.Result → Tables → Prop
  | .map vaddr paddr length flags psize cache, r, st' =>
      Returns (fun fuel => pm.map fuel vaddr paddr length flags psize cache st) (st', r)
  | .unmap vaddr length psize, r, st' =>
      Returns (fun fuel => pm.unmap fuel vaddr length psize st) (st', r)
  | .protect vaddr length flags psize cache, r, st' =>
      Returns (fun fuel => pm.protect fuel vaddr length flags psize cache st) (st', r)
  | .translate vaddr psize, r, st' => pm.translate vaddr psize st = .ok (st', r)

/-- What a call does to the frames mapped last. -/
def Pagemap.HwCall (pm : Pagemap) (m : HwMap) : (op : Op) → Except Error op.Result → HwMap → Prop
  | .map vaddr paddr length flags psize _, r, m' =>
      let ps := pm.fixpsize psize
      if vaddr % fromPageSize ps ≠ 0 then r = .error .addrNotAligned ∧ m' = m
      else r = .ok () ∧
        m' = m.mapRange vaddr (turns (fromPageSize ps) length * pagesOf ps) paddr flags.read
  | .unmap vaddr length psize, r, m' =>
      let ps := pm.fixpsize psize
      if vaddr % fromPageSize ps ≠ 0 then r = .error .addrNotAligned ∧ m' = m
      else r = .ok () ∧ m' = m.unmapRange vaddr (turns (fromPageSize ps) length * pagesOf ps)
  | .protect vaddr length flags psize _, r, m' =>
      let ps := pm.fixpsize psize
      if vaddr % fromPageSize ps ≠ 0 then r = .error .addrNotAligned ∧ m' = m
      else ∃ k, m' = m.protectRange vaddr (k * pagesOf ps) flags.read ∧
        ((r = .ok () ∧ k = turns (fromPageSize ps) length) ∨
          (r = .error .invalidEntry ∧ k < turns (fromPageSize ps) length))
  | .translate _ _, _, m' => m' = m

/-- The calls that meet no larger page on their way, with a range that is not longer than the address
space. `map` is given a physical range that is aligned to the page size and below `2 ^ 52`, and
`protect` rewrites pages of its own size. -/
def Pagemap.Safe (pm : Pagemap) (st : Tables) : Op → Prop
  | .map vaddr paddr length _ psize _ =>
      let ps := pm.fixpsize psize
      vaddr % fromPageSize ps = 0 → length ≤ 2 ^ 48 ∧ fromPageSize ps ∣ paddr ∧
        paddr + length ≤ 2 ^ 52 ∧ pm.ClearRange st vaddr length ps
  | .unmap vaddr length psize =>
      let ps := pm.fixpsize psize
      vaddr % fromPageSize ps = 0 → length ≤ 2 ^ 48 ∧ pm.ClearRange st vaddr length ps
  | .protect vaddr length _ psize _ =>
      let ps := pm.fixpsize psize
      vaddr % fromPageSize ps = 0 → length ≤ 2 ^ 48 ∧ pm.ClearRange st vaddr length ps ∧
        pm.MappedRange st vaddr length ps
  | .translate vaddr psize =>
      let ps := pm.fixpsize psize
      vaddr % fromPageSize ps = 0 → pm.Clear st vaddr (depth ps)

/-- An empty root table and empty histories. -/
def Pagemap.Fresh (pm : Pagemap) (st : Tables) : Prop :=
  (∀ j, st.mem pm.table j = 0#64) ∧ st.followed = [] ∧ st.written = []

/-- The runs of a page map: from an empty root table, or from what the constructor of the kernel page
map makes of it. -/
def Pagemap.system (pm : Pagemap) : TransitionSystem Tables ((op : Op) × Except Error op.Result) where
  init st := pm.Fresh st ∨ ∃ st₀, pm.Fresh st₀ ∧ pm.construct st₀ = .ok st
  step st l st' := pm.OpCall st l.1 l.2 st'

/-- The frames mapped last. -/
def Pagemap.hwSystem (pm : Pagemap) :
    TransitionSystem HwMap ((op : Op) × Except Error op.Result) where
  init m := ∀ x, m x = none
  step m l m' := pm.HwCall m l.1 l.2 m'

/-! ## Initial states -/

section Init

variable {pm : Pagemap} {st : Tables}

/-- Only tables were followed and written to. -/
structure Pagemap.LogsOk (pm : Pagemap) (st : Tables) : Prop where
  followed : ∀ e ∈ st.followed, isLeaf e = false
  written : ∀ t ∈ st.written, t ∈ pm.tables st.ntables

theorem Pagemap.LogsOk.trans (h : pm.LogsOk st) {st' : Tables} (hlogs : pm.Logs st st') :
    pm.LogsOk st' where
  followed e he := (hlogs.followed e he).elim (h.followed e) id
  written t ht := (hlogs.written t ht).elim
    (fun h' => pm.tables_mono hlogs.ntables_le (h.written t h')) id

theorem Pagemap.Fresh.wf (h : pm.Fresh st) : pm.Wf st (fun _ => True) ∧ ∀ v, pm.lookup st v = none := by
  have hnil : ∀ p t, pm.walk st p = some t → p = [] ∧ t = pm.table := by
    rintro (- | ⟨i, p⟩) t hw
    · exact ⟨rfl, (Option.some.inj hw).symm⟩
    · rw [Pagemap.walk, Radix.walk, h.1 i] at hw
      cases hw
  refine ⟨⟨⟨?_⟩, ?_⟩, ?_⟩
  · intro p _ q _ t hwp hwq
    rw [(hnil p t hwp).1, (hnil q t hwq).1]
  · exact fun p _ t hw => Or.inl (hnil p t hw).2
  · intro v
    rw [Pagemap.lookup, Radix.lookup, pathTo_levels, Radix.slot, h.1]
    rfl

/-- The constructor of the kernel page map hangs in empty tables. -/
theorem Pagemap.Wf.preallocate (hpm : pm.FreshTables) {left : ℕ} : ∀ {st st' i},
    pm.Wf st (fun _ => True) → (∀ j, i ≤ j → st.mem pm.table j = 0#64) → i + left ≤ 512 →
    pm.preallocate i left st = .ok st' → pm.Extends (fun _ => True) st st' := by
  induction left with
  | zero =>
      intro st st' i h _ _ heq
      rw [Pagemap.preallocate, Except.ok.injEq] at heq
      exact heq ▸ .refl h
  | succ left ih =>
      intro st st' i h hzero hle heq
      rw [Pagemap.preallocate, pm.getlvl_of_empty true (hzero i le_rfl), if_neg (by decide)] at heq
      cases hn : pm.newTable st.ntables with
      | none =>
          rw [hn] at heq
          cases heq
      | some n =>
          rw [hn] at heq
          have hpath : ([] : List ℕ) ++ [i] ∈ paths fun _ => True :=
            ⟨by rw [List.nil_append, List.length_singleton]; decide, fun _ _ => trivial⟩
          have hlt : ∀ j ∈ ([] : List ℕ) ++ [i], j < 512 := by
            intro j hj
            rw [List.mem_singleton.mp hj]
            omega
          obtain ⟨hext, -⟩ := h.link hpm hpath hlt rfl (hzero i le_rfl) hn
          refine hext.trans (ih hext.wf (fun j hj => ?_) (by omega) heq)
          have hne : pm.table ≠ n := fun heq' => hpm.ne_table st.ntables (heq' ▸ hn)
          rw [Tables.write]
          dsimp only
          rw [Radix.set_of_ne (fun hc => by omega)]
          rw [Tables.clearTable]
          dsimp only
          rw [Function.update_of_ne hne]
          exact hzero j (by omega)

theorem Pagemap.system_init (hpm : pm.FreshTables) (h : pm.system.init st) :
    pm.HwRefines st (fun _ => none) ∧ pm.LogsOk st := by
  have hfresh : ∀ st, pm.Fresh st → pm.HwRefines st (fun _ => none) ∧ pm.LogsOk st := by
    intro st hst
    obtain ⟨hwf, hnone⟩ := hst.wf
    refine ⟨⟨hwf, fun x _ rest e hl => ?_, fun x _ _ f hf => by cases hf⟩, ?_, ?_⟩
    · rw [hnone] at hl
      cases hl
    · rw [hst.2.1]
      exact fun e he => by cases he
    · rw [hst.2.2]
      exact fun e he => by cases he
  rcases h with hst | ⟨st₀, hst₀, hcon⟩
  · exact hfresh st hst
  · obtain ⟨href, hlogs⟩ := hfresh st₀ hst₀
    have hext := href.wf.preallocate hpm (fun j _ => hst₀.1 j) (by decide) hcon
    exact ⟨href.extends hext, hlogs.trans hext.logs⟩

end Init

/-! ## Safe calls -/

section Calls

variable {pm : Pagemap} {st st' : Tables} {m : HwMap}

/-- A safe call that returns keeps the tables in line with the frames mapped last. -/
theorem Pagemap.HwRefines.call (hpm : pm.FreshTables) (h : pm.HwRefines st m) {op : Op}
    (hsafe : pm.Safe st op) {r : Except Error op.Result} (hcall : pm.OpCall st op r st') :
    ∃ m', pm.HwCall m op r m' ∧ pm.HwRefines st' m' ∧ pm.Logs st st' := by
  cases op with
  | map vaddr paddr length flags psize cache =>
      simp only [Pagemap.OpCall, Pagemap.map] at hcall
      simp only [Pagemap.HwCall]
      by_cases hv : vaddr % fromPageSize (pm.fixpsize psize) ≠ 0
      · simp only [if_pos hv] at hcall ⊢
        obtain ⟨rfl, rfl⟩ := Prod.mk.inj (hcall.unique (.of_eq fun _ => rfl))
        exact ⟨m, ⟨rfl, rfl⟩, h, .refl pm _⟩
      · simp only [if_neg hv] at hcall ⊢
        rw [not_not] at hv
        obtain ⟨hlen, hp, hpr, hc⟩ := hsafe hv
        rcases h.map hpm hv hlen hp hpr hc flags cache with ⟨st₂, hret, href, hlogs⟩ | hpanic
        · obtain ⟨rfl, rfl⟩ := Prod.mk.inj (hcall.unique hret)
          exact ⟨_, ⟨rfl, rfl⟩, href, hlogs⟩
        · exact absurd hpanic hcall.not_stops
  | unmap vaddr length psize =>
      simp only [Pagemap.OpCall, Pagemap.unmap] at hcall
      simp only [Pagemap.HwCall]
      by_cases hv : vaddr % fromPageSize (pm.fixpsize psize) ≠ 0
      · simp only [if_pos hv] at hcall ⊢
        obtain ⟨rfl, rfl⟩ := Prod.mk.inj (hcall.unique (.of_eq fun _ => rfl))
        exact ⟨m, ⟨rfl, rfl⟩, h, .refl pm _⟩
      · simp only [if_neg hv] at hcall ⊢
        rw [not_not] at hv
        obtain ⟨hlen, hc⟩ := hsafe hv
        obtain ⟨st₂, hret, href, hlogs⟩ := h.unmap hv hlen hc
        obtain ⟨rfl, rfl⟩ := Prod.mk.inj (hcall.unique hret)
        exact ⟨_, ⟨rfl, rfl⟩, href, hlogs⟩
  | protect vaddr length flags psize cache =>
      simp only [Pagemap.OpCall, Pagemap.protect] at hcall
      simp only [Pagemap.HwCall]
      by_cases hv : vaddr % fromPageSize (pm.fixpsize psize) ≠ 0
      · simp only [if_pos hv] at hcall ⊢
        obtain ⟨rfl, rfl⟩ := Prod.mk.inj (hcall.unique (.of_eq fun _ => rfl))
        exact ⟨m, ⟨rfl, rfl⟩, h, .refl pm _⟩
      · simp only [if_neg hv] at hcall ⊢
        rw [not_not] at hv
        obtain ⟨hlen, hc, hmapped⟩ := hsafe hv
        obtain ⟨st₂, r', k, hret, href, hlogs, hres⟩ := h.protect hv hlen hc hmapped flags cache
        obtain ⟨rfl, rfl⟩ := Prod.mk.inj (hcall.unique hret)
        exact ⟨_, ⟨k, rfl, hres⟩, href, hlogs⟩
  | translate vaddr psize =>
      suffices hext : pm.Extends (fun _ => True) st st' from
        ⟨m, rfl, h.extends hext, hext.logs⟩
      simp only [Pagemap.OpCall, Pagemap.translate] at hcall
      by_cases hv : vaddr % fromPageSize (pm.fixpsize psize) ≠ 0
      · rw [if_pos hv] at hcall
        rw [← (Prod.mk.inj (Except.ok.inj hcall)).1]
        exact .refl h.wf
      · rw [if_neg hv] at hcall
        rw [not_not] at hv
        obtain ⟨st₁, hext, -, ⟨t, -, hget⟩ | ⟨-, hget⟩⟩ := h.wf.getpte_walk _ (hsafe hv)
        · rw [hget] at hcall
          dsimp only at hcall
          split at hcall
          · rwa [← (Prod.mk.inj (Except.ok.inj hcall)).1]
          · rwa [← (Prod.mk.inj (Except.ok.inj hcall)).1]
        · rw [hget] at hcall
          rwa [← (Prod.mk.inj (Except.ok.inj hcall)).1]

end Calls

/-- In every run of safe calls, `getlvl` has followed no entry of a large page, entries were written to
tables only, and the hardware walk of each page finds the frame mapped there last. -/
theorem mixed_pages_safe {pm : Pagemap} (hpm : pm.FreshTables)
    {tr : List ((op : Op) × Except Error op.Result)} {st : Tables}
    (h : (pm.system.restrict fun st l => pm.Safe st l.1).Run tr st) :
    (∀ e ∈ st.followed, isLeaf e = false) ∧ (∀ t ∈ st.written, t ∈ pm.tables st.ntables) ∧
      ∃ m, pm.hwSystem.Run tr m ∧ ∀ x < allPages, pm.hwWalk st x = m.visible x := by
  have hsim : ∃ m, pm.hwSystem.Run tr m ∧ pm.HwRefines st m ∧ pm.LogsOk st := by
    refine h.simulates (R := fun st m => pm.HwRefines st m ∧ pm.LogsOk st) (fun st hst => ?_) ?_
    · exact ⟨fun _ => none, fun _ => rfl, pm.system_init hpm hst⟩
    · rintro st m ⟨op, r⟩ st' ⟨href, hlogs⟩ ⟨hsafe, hcall⟩
      obtain ⟨m', hm', href', hlogs'⟩ := href.call hpm hsafe hcall
      exact ⟨m', hm', href', hlogs.trans hlogs'⟩
  obtain ⟨m, hm, href, hlogs⟩ := hsim
  exact ⟨hlogs.followed, hlogs.written, m, hm, fun x hx => href.hwWalk hx⟩

/-- One more safe call. -/
private theorem run_safe {pm : Pagemap} {tr : List ((op : Op) × Except Error op.Result)}
    {s t : Tables} (h : (pm.system.restrict fun st l => pm.Safe st l.1).Run tr s) (o : Op)
    (r : Except Error o.Result) (hsafe : pm.Safe s o) (hcall : pm.OpCall s o r t) :
    (pm.system.restrict fun st l => pm.Safe st l.1).Run (tr ++ [⟨o, r⟩]) t :=
  h.step ⟨hsafe, hcall⟩

theorem mixed_pages_safe_medium : ∃ st,
    (∀ e ∈ st.followed, isLeaf e = false) ∧
    (∀ t ∈ st.written, t ∈ exampleMachine.tables st.ntables) ∧
    ∃ m, exampleMachine.hwSystem.Run
        [⟨.map 0x200000 0x600000 0x200000 Pflag.rw .medium .writeBack, .ok ()⟩] m ∧
      ∀ x < allPages, exampleMachine.hwWalk st x = m.visible x := by
  have h₀ : (exampleMachine.system.restrict fun st l => exampleMachine.Safe st l.1).Run [] Tables.empty :=
    .init (Or.inl ⟨fun _ => rfl, rfl, rfl⟩)
  have h₁ := run_safe h₀ (.map 0x200000 0x600000 0x200000 Pflag.rw .medium .writeBack) (.ok ())
    (fun _ => ⟨by decide, by decide, by decide, fun k _ => Or.inl rfl⟩) ⟨3, fun fuel hfuel => by
      obtain ⟨n, rfl⟩ := Nat.exists_eq_add_of_le' hfuel
      rfl⟩
  exact ⟨_, mixed_pages_safe exampleMachine_freshTables h₁⟩

/-! ## `vmm::init` -/

/-- Every turn of the loop of `vmm::init` does nothing or is a call of `map`. -/
theorem Pagemap.initEntry_spec {pm : Pagemap} {hhdm : ℕ} {memmap : Memmap} {st st' : Tables}
    (h : Returns (fun fuel => pm.initEntry hhdm fuel memmap st) st') :
    st' = st ∨ pm.OpCall st (.map (tohh hhdm memmap.mapBase) memmap.mapBase memmap.mapLength Pflag.rw
      memmap.psize memmap.cache) (.ok ()) st' := by
  obtain ⟨N, hN⟩ := h
  simp only [Pagemap.initEntry] at hN
  split at hN
  · exact Or.inl (Except.ok.inj (hN N le_rfl)).symm
  · split at hN
    · exact Or.inl (Except.ok.inj (hN N le_rfl)).symm
    · split at hN
      · exact Or.inl (Except.ok.inj (hN N le_rfl)).symm
      · refine Or.inr ⟨N, fun fuel hfuel => ?_⟩
        have hret := hN fuel hfuel
        split at hret
        · cases hret
        · cases hret
        · rename_i heq
          exact heq.trans (by rw [Except.ok.inj hret])

/-- More fuel does not change what `vmm::init` returns. -/
theorem Pagemap.init_mono {pm : Pagemap} {hhdm fuel fuel' : ℕ} (hle : fuel ≤ fuel')
    {memmaps : List Memmap} : ∀ {st st'}, pm.init hhdm fuel memmaps st = .ok st' →
      pm.init hhdm fuel' memmaps st = .ok st' := by
  induction memmaps with
  | nil => exact id
  | cons memmap memmaps ih =>
      intro st st' h
      rw [Pagemap.init] at h ⊢
      cases he : pm.initEntry hhdm fuel memmap st with
      | error stop =>
          rw [he] at h
          cases h
      | ok st₁ =>
          have he' : pm.initEntry hhdm fuel' memmap st = .ok st₁ := by
            rw [Pagemap.initEntry] at he ⊢
            split
            · rename_i h₁
              rwa [if_pos h₁] at he
            · rename_i h₁
              rw [if_neg h₁] at he
              split
              · rename_i h₂
                rwa [if_pos h₂] at he
              · rename_i h₂
                rw [if_neg h₂] at he
                split
                · rename_i h₃
                  rwa [if_pos h₃] at he
                · rename_i h₃
                  rw [if_neg h₃] at he
                  split at he
                  · cases he
                  · cases he
                  · rename_i hmap
                    rw [Pagemap.map_mono hle hmap]
                    exact he
          rw [he] at h
          rw [he']
          exact ih h

/-- The direct map offset of the examples. -/
def exampleHhdm : ℕ := 0xffff800000000000

/-- A memory map with 3 MiB of usable memory and a page of the boot loader after it. -/
def exampleMemmaps : List Memmap := [⟨0, mib 3, .usable⟩, ⟨mib 3, kib 4, .bootloader⟩]

/-- On `exampleMemmaps` `vmm::init` maps the first entry with two pages of 2 MiB and follows the second
one of these as a table, so that the entry of the small page is written to the frame at 2 MiB. -/
theorem init_follows_leaf : ∃ st₀ st, exampleMachine.construct Tables.empty = .ok st₀ ∧
    Returns (fun fuel => exampleMachine.init exampleHhdm fuel exampleMemmaps st₀) st ∧
    (∃ e ∈ st.followed, isLeaf e = true) ∧
    ∃ t ∈ st.written, t = mib 2 ∧ t ∉ exampleMachine.tables st.ntables := by
  have hrun : ((exampleMachine.construct Tables.empty >>=
      exampleMachine.init exampleHhdm 5 exampleMemmaps).map fun st =>
        (st.followed.any isLeaf, st.written.any (· == mib 2), st.ntables)).toOption =
      some (true, true, 257) := by decide +kernel
  obtain ⟨st, hst, heq⟩ := Except.map_eq_ok_iff.mp (Except.toOption_eq_some_iff.mp hrun)
  obtain ⟨st₀, h₀, h⟩ := Except.bind_eq_ok_iff.mp hst
  obtain ⟨hleaf, hwritten, hn⟩ : st.followed.any isLeaf = true ∧
      st.written.any (· == mib 2) = true ∧ st.ntables = 257 := by
    simpa only [Prod.mk.injEq] using heq
  obtain ⟨e, he, hel⟩ := List.any_eq_true.mp hleaf
  obtain ⟨t, ht, htm⟩ := List.any_eq_true.mp hwritten
  refine ⟨st₀, st, h₀, ⟨5, fun fuel hfuel => Pagemap.init_mono hfuel h⟩, ⟨e, he, hel⟩, t, ht,
    beq_iff_eq.mp htm, ?_⟩
  rw [beq_iff_eq.mp htm, hn]
  rintro (htab | ⟨k, hk, htab⟩)
  · cases htab
  · rw [exampleMachine] at htab
    dsimp only at htab
    rw [if_pos (by omega), Option.some.injEq] at htab
    simp only [mib, kib] at htab
    omega

end Ilobilix.Vmm
