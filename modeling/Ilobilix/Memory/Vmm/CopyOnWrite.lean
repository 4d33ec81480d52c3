import Ilobilix.Memory.Vmm.Coherence
import Ilobilix.Memory.Vmm.Fault
import Ilobilix.Memory.Vmm.Object

/-!
# Copy on write

A write to a page of a private mapping whose object is shared makes a new object with the pages of the
old one, puts it in the place of the old one and maps its page. Here the handler of `Fault.lean` comes
with the bytes of the physical pages, so that one can say what the new object holds.

The handler does not get that far. It copies the pages and then asks for the lock of the tree that it
holds: `copy_on_write_never`. The copy itself is made at other indices than those that the mapping is
read at: `copied_bytes_iff`.
-/

namespace Ilobilix.Vmm

open Lib Intervals

/-! ## The model -/

/-- The bytes of the physical pages. -/
abbrev Memory : Type := ℕ → PageData

/-- `object::get_page` of a `memobject`, whose `request_page` returns a cleared page. -/
def Space.fetch (obj idx requested : ℕ) (s : Space) (mem : Memory) : Space × Memory × ℕ :=
  let (s', pg) := s.getPage obj idx requested
  match s.pages obj idx with
  | some _ => (s', mem, pg)
  | none => (s', if requested ≠ 0 then Function.update mem requested .cleared else mem, pg)

/-- `object::copy_to` of whole pages from the index `idx` on, as `Space.copyTo`, with the bytes. -/
def Space.copyPages (obj other : ℕ) (requests : ℕ → ℕ → ℕ) :
    (left idx : ℕ) → Space → Memory → Space × Memory
  | 0, _, s, mem => (s, mem)
  | left + 1, idx, s, mem =>
      match s.fetch obj idx (requests obj idx) mem with
      | (s, mem, 0) => (s, mem)
      | (s, mem, ours + 1) =>
          match s.fetch other idx (requests other idx) mem with
          | (s, mem, 0) => (s, mem)
          | (s, mem, theirs + 1) =>
              s.copyPages obj other requests left ((idx + 1) % 2 ^ 52)
                (Function.update mem (theirs + 1) (mem (ours + 1)))

namespace Faulting

/-- `objectFor` with the bytes that `copy_to` copies. -/
def objectForBytes (pm : Pagemap) (fuel : ℕ) (onWrite : Bool) (external : ℕ → ℕ) (memobject : ℕ)
    (requests : ℕ → ℕ → ℕ) (entry : Mapping) (f : Faulting) (mem : Memory) :
    Except Halt (Faulting × Memory × ℕ) :=
  if onWrite && entry.flags.getLsbD 1 && 1 < f.space.useCount external entry.obj then
    let pages := wsub entry.endp entry.startp % 2 ^ 52
    let copied := f.space.copyPages entry.obj memobject requests pages
      ((entry.startp + entry.offsetp) % 2 ^ 52) mem
    Faulting.map pm fuel (entry.startp * psize % 2 ^ 64)
      (wsub entry.endp entry.startp * psize % 2 ^ 64) entry.prot entry.flags memobject
      (entry.offsetp * psize % 2 ^ 64) { f with space := copied.1 } >>= fun r =>
        match r with
        | (_, .error _) => .error (.stop .panic)
        | (f, .ok ()) => .ok (f, copied.2, memobject)
  else .ok (f, mem, entry.obj)

/-- `handle_pfault` with the bytes of the pages. -/
def handlePfaultBytes (pm : Pagemap) (fuel addr : ℕ) (onWrite : Bool) (external : ℕ → ℕ)
    (memobject : ℕ) (requests : ℕ → ℕ → ℕ) (f : Faulting) (mem : Memory) :
    Except Halt (Faulting × Memory × Bool) :=
  f.writeLock >>= fun f =>
    match f.space.entryAt addr with
    | none => .ok (f.writeUnlock, mem, false)
    | some entry =>
        f.objectForBytes pm fuel onWrite external memobject requests entry mem >>=
          fun (f, mem, obj) =>
            f.read entry >>= fun entry =>
              let pidx := ((addr / psize - entry.startp) + entry.offsetp) % 2 ^ 64
              let mem := (f.space.fetch obj pidx (requests obj pidx) mem).2.1
              f.mapIn pm fuel (addr / psize) obj pidx (requests obj pidx) entry.prot >>=
                fun (f, ret) => .ok (f, mem, ret)

end Faulting

/-! ## What the copy holds -/

/-- The byte of an object in the page at an index; a page that was not requested yet will be
cleared. -/
def Space.byteAt (s : Space) (mem : Memory) (obj idx j : ℕ) : UInt8 :=
  match s.pages obj idx with
  | some frame => mem frame j
  | none => 0

/-- `requests` gives every page of an object a frame of its own, which the object holds already or gets
when it asks for the page. -/
structure Frames (requests : ℕ → ℕ → ℕ) (s : Space) : Prop where
  held : ∀ obj idx frame, s.pages obj idx = some frame → frame = requests obj idx
  nonzero : ∀ obj idx, requests obj idx ≠ 0
  distinct : ∀ obj idx obj' idx', requests obj idx = requests obj' idx' → obj = obj' ∧ idx = idx'

section Copy

variable {s s' : Space} {mem mem' : Memory} {requests : ℕ → ℕ → ℕ} {obj other idx : ℕ}

/-- The pages of the objects are the same as without the bytes. -/
theorem Space.fetch_eq (s : Space) (mem : Memory) (obj idx requested : ℕ) :
    ((s.fetch obj idx requested mem).1, (s.fetch obj idx requested mem).2.2) =
      s.getPage obj idx requested := by
  unfold Space.fetch
  dsimp only
  split
  · rfl
  · rfl

theorem Space.copyPages_eq (s : Space) (mem : Memory) (left : ℕ) :
    (s.copyPages obj other requests left idx mem).1 = s.copyTo obj other requests left idx := by
  induction left generalizing s mem idx with
  | zero => rfl
  | succ left ih =>
      rw [Space.copyPages, Space.copyTo, ← Space.fetch_eq s mem]
      rcases s.fetch obj idx (requests obj idx) mem with ⟨s₁, mem₁, ours⟩
      dsimp only
      cases ours with
      | zero => rfl
      | succ ours =>
          dsimp only
          rw [← Space.fetch_eq s₁ mem₁]
          rcases s₁.fetch other idx (requests other idx) mem₁ with ⟨s₂, mem₂, theirs⟩
          dsimp only
          cases theirs with
          | zero => rfl
          | succ theirs => exact ih s₂ _

/-- A page that is asked for is there afterwards, and no byte changes. -/
theorem Frames.fetch (h : Frames requests s) (mem : Memory) (obj idx : ℕ) :
    ∃ s' mem', s.fetch obj idx (requests obj idx) mem = (s', mem', requests obj idx) ∧
      Frames requests s' ∧ s'.pages obj idx = some (requests obj idx) ∧
      (∀ o i frame, s.pages o i = some frame → s'.pages o i = some frame) ∧
      ∀ o i j, s'.byteAt mem' o i j = s.byteAt mem o i j := by
  unfold Space.fetch Space.getPage
  cases hpage : s.pages obj idx with
  | some frame =>
      refine ⟨s, mem, ?_, h, ?_, fun _ _ _ => id, fun _ _ _ => rfl⟩
      · rw [h.held obj idx frame hpage]
      · rw [hpage, h.held obj idx frame hpage]
  | none =>
      have hne := h.nonzero obj idx
      -- the object has the new page, all other pages are as before
      have hpages : ∀ o i, Function.update s.pages obj (Function.update (s.pages obj) idx
          (some (requests obj idx))) o i =
            if o = obj ∧ i = idx then some (requests obj idx) else s.pages o i := by
        intro o i
        by_cases ho : o = obj
        · subst ho
          by_cases hi : i = idx
          · simp [hi]
          · simp [hi]
        · simp [ho]
      simp only [if_pos hne]
      refine ⟨_, _, rfl, ⟨?_, h.nonzero, h.distinct⟩, ?_, ?_, ?_⟩
      · intro o i frame hframe
        dsimp only at hframe
        rw [hpages] at hframe
        split at hframe
        · rename_i heq
          rw [heq.1, heq.2]
          exact (Option.some.inj hframe).symm
        · exact h.held o i frame hframe
      · dsimp only
        rw [hpages, if_pos ⟨rfl, rfl⟩]
      · intro o i frame hframe
        dsimp only
        rw [hpages, if_neg]
        · exact hframe
        · rintro ⟨rfl, rfl⟩
          rw [hpage] at hframe
          cases hframe
      · intro o i j
        unfold Space.byteAt
        dsimp only
        rw [hpages]
        by_cases heq : o = obj ∧ i = idx
        · rw [if_pos heq, heq.1, heq.2, hpage]
          dsimp only
          rw [Function.update_self]
          rfl
        · rw [if_neg heq]
          cases hold : s.pages o i with
          | none => rfl
          | some frame =>
              dsimp only
              rw [Function.update_of_ne]
              intro hframe
              rw [h.held o i frame hold] at hframe
              exact heq (h.distinct o i obj idx hframe)

/-- `copy_to` puts the bytes of the old object into the new one, at the same indices. -/
theorem Frames.copyPages (h : Frames requests s) (mem : Memory) (hne : obj ≠ other) {left : ℕ}
    (hidx : idx + left ≤ 2 ^ 52) :
    ∃ s' mem', s.copyPages obj other requests left idx mem = (s', mem') ∧ Frames requests s' ∧
      ∀ o i j, s'.byteAt mem' o i j =
        if o = other ∧ idx ≤ i ∧ i < idx + left then s.byteAt mem obj i j else s.byteAt mem o i j := by
  induction left generalizing s mem idx with
  | zero =>
      refine ⟨s, mem, rfl, h, fun o i j => ?_⟩
      rw [if_neg (by omega)]
  | succ left ih =>
      obtain ⟨s₁, mem₁, hours, h₁, hpage₁, -, hbytes₁⟩ := h.fetch mem obj idx
      obtain ⟨s₂, mem₂, htheirs, h₂, hpage₂, hkeep₂, hbytes₂⟩ := h₁.fetch mem₁ other idx
      obtain ⟨ours, hours'⟩ := Nat.exists_eq_succ_of_ne_zero (h.nonzero obj idx)
      obtain ⟨theirs, htheirs'⟩ := Nat.exists_eq_succ_of_ne_zero (h.nonzero other idx)
      -- one page is copied
      have hcopied : ∀ o i j, s₂.byteAt (Function.update mem₂ (requests other idx)
          (mem₂ (requests obj idx))) o i j =
            if o = other ∧ i = idx then s.byteAt mem obj i j else s.byteAt mem o i j := by
        intro o i j
        rw [← hbytes₁ obj i j, ← hbytes₂ obj i j, ← hbytes₁ o i j, ← hbytes₂ o i j]
        unfold Space.byteAt
        by_cases heq : o = other ∧ i = idx
        · rw [if_pos heq, heq.1, heq.2, hpage₂, hkeep₂ obj idx _ hpage₁]
          dsimp only
          rw [Function.update_self]
        · rw [if_neg heq]
          cases hold : s₂.pages o i with
          | none => rfl
          | some frame =>
              dsimp only
              rw [Function.update_of_ne]
              intro hframe
              rw [h₂.held o i frame hold] at hframe
              exact heq (h.distinct o i other idx hframe)
      have hstep : s.copyPages obj other requests (left + 1) idx mem =
          s₂.copyPages obj other requests left ((idx + 1) % 2 ^ 52)
            (Function.update mem₂ (requests other idx) (mem₂ (requests obj idx))) := by
        rw [Space.copyPages, hours, hours']
        dsimp only
        rw [htheirs, htheirs']
      rw [hstep]
      rcases Nat.eq_zero_or_pos left with rfl | hpos
      · refine ⟨s₂, _, rfl, h₂, fun o i j => ?_⟩
        rw [hcopied]
        exact if_congr (by omega) rfl rfl
      · rw [Nat.mod_eq_of_lt (by omega)]
        obtain ⟨s', mem', hrest, h', hbytes'⟩ := ih h₂ (Function.update mem₂ (requests other idx)
          (mem₂ (requests obj idx))) (show idx + 1 + left ≤ 2 ^ 52 by omega)
        refine ⟨s', mem', hrest, h', fun o i j => ?_⟩
        rw [hbytes', hcopied, hcopied, if_neg (show ¬ (obj = other ∧ i = idx) from fun hc => hne hc.1)]
        by_cases hlater : o = other ∧ idx + 1 ≤ i ∧ i < idx + 1 + left
        · rw [if_pos hlater, if_pos (by omega)]
        · rw [if_neg hlater]
          refine if_ctx_congr (by omega) (fun _ => rfl) fun _ => rfl

/-- The mapping `[startp, endp)` is read from the index `offsetp` on and copied from the index
`startp + offsetp` on. The copy has the bytes of the old object where the mapping is read if and only if
the first `startp` pages of these are clear. -/
theorem copied_bytes_iff (h : Frames requests s) (mem : Memory) {entry : Mapping} {memobject : ℕ}
    (hne : entry.obj ≠ memobject) (hnew : ∀ idx, s.pages memobject idx = none)
    (hle : entry.startp ≤ entry.endp) (hend : entry.offsetp + entry.endp ≤ 2 ^ 52) :
    ∃ s' mem', s.copyPages entry.obj memobject requests (entry.endp - entry.startp)
        (entry.startp + entry.offsetp) mem = (s', mem') ∧
      ((∀ i < entry.endp - entry.startp, ∀ j < psize,
          s'.byteAt mem' memobject (entry.offsetp + i) j =
            s.byteAt mem entry.obj (entry.offsetp + i) j) ↔
        ∀ i < entry.endp - entry.startp, i < entry.startp → ∀ j < psize,
          s.byteAt mem entry.obj (entry.offsetp + i) j = 0) := by
  obtain ⟨s', mem', hcopy, -, hbytes⟩ := h.copyPages mem hne
    (show entry.startp + entry.offsetp + (entry.endp - entry.startp) ≤ 2 ^ 52 by omega)
  refine ⟨s', mem', hcopy, forall_congr' fun i => forall_congr' fun hi => ?_⟩
  have hzero : ∀ j, s.byteAt mem memobject (entry.offsetp + i) j = 0 := by
    intro j
    rw [Space.byteAt, hnew]
  constructor
  · intro hall hlt j hj
    have hj := hall j hj
    rw [hbytes, if_neg (by omega), hzero] at hj
    exact hj.symm
  · intro hall j hj
    rw [hbytes]
    by_cases hlt : i < entry.startp
    · rw [if_neg (by omega), hzero, hall hlt j hj]
    · rw [if_pos (by omega)]

end Copy

/-! ## The handler -/

/-- The fault makes a copy: the handler returns, the mapping has the new object, which holds the bytes
of the old one wherever the mapping is read, and the page is mapped to the new object. -/
def CopiedOnWrite (pm : Pagemap) (addr : ℕ) (external : ℕ → ℕ) (memobject : ℕ)
    (requests : ℕ → ℕ → ℕ) (s : Space) (mem : Memory) : Prop :=
  ∃ entry s' mem', s.entryAt addr = some entry ∧
    Returns (fun fuel => Faulting.handlePfaultBytes pm fuel addr true external memobject requests
      ⟨s, false, []⟩ mem) (⟨s', false, []⟩, mem', true) ∧
    ⟨entry.startp, entry.endp, memobject, entry.offsetp, entry.prot, entry.flags⟩ ∈ s'.tree ∧
    (∀ i < entry.endp - entry.startp, ∀ j < psize,
      s'.byteAt mem' memobject (entry.offsetp + i) j =
        s.byteAt mem entry.obj (entry.offsetp + i) j) ∧
    s'.pages memobject (entry.offsetp + (addr / psize - entry.startp)) =
      some (getaddr (pm.pte s'.pmap (addr / psize)))

/-- The handler with the bytes asks for the lock that it holds, too. -/
theorem Faulting.handlePfaultBytes_of_copies {pm : Pagemap} {fuel addr memobject : ℕ}
    {external : ℕ → ℕ} {requests : ℕ → ℕ → ℕ} {s : Space} {mem : Memory}
    (h : s.CopiesOnWrite external addr true) :
    handlePfaultBytes pm fuel addr true external memobject requests ⟨s, false, []⟩ mem =
      .error .selfLock := by
  obtain ⟨-, entry, hentry, hprivate, hcount⟩ := h
  have hobject : objectForBytes pm fuel true external memobject requests entry ⟨s, true, []⟩ mem =
      .error .selfLock := by
    rw [objectForBytes, if_pos (by simp [hprivate, hcount])]
    dsimp only
    rw [map_of_held (mul_psize_mod _) (mul_psize_mod _) rfl]
    rfl
  simp only [handlePfaultBytes, writeLock, Bool.false_eq_true, if_false, bind, Except.bind]
  rw [hentry]
  simp only [hobject]

theorem not_copied_of_copies {pm : Pagemap} {addr memobject : ℕ} {external : ℕ → ℕ}
    {requests : ℕ → ℕ → ℕ} {s : Space} {mem : Memory} (h : s.CopiesOnWrite external addr true) :
    ¬ CopiedOnWrite pm addr external memobject requests s mem := by
  rintro ⟨entry, s', mem', -, ⟨N, hN⟩, -⟩
  have hret := hN N le_rfl
  dsimp only at hret
  rw [Faulting.handlePfaultBytes_of_copies h] at hret
  cases hret

/-- No write to a private mapping with a shared object ends with a copy. -/
theorem copy_on_write_never (pm : Pagemap) (s : Space) (mem : Memory) (external : ℕ → ℕ)
    (addr : UInt64) (memobject : ℕ) (requests : ℕ → ℕ → ℕ)
    (h : s.CopiesOnWrite external addr.toNat true) :
    ¬ CopiedOnWrite pm addr.toNat external memobject requests s mem :=
  not_copied_of_copies h

/-- A frame of its own for each page of an object. -/
def exampleRequests (obj idx : ℕ) : ℕ := (obj + 4 * idx) * psize

/-- Two mappings share an object, which holds its first page. -/
def exampleShared : Space :=
  ⟨Tables.empty, [⟨0x10, 0x11, 1, 0, 3, 0x32⟩, ⟨0x12, 0x13, 1, 2, 3, 0x32⟩],
    fun obj idx => if obj = 1 ∧ idx = 0 then some (exampleRequests 1 0) else none⟩

private theorem exampleShared_copies :
    exampleShared.CopiesOnWrite (fun _ => 0) (UInt64.toNat 0x10000) true := by
  refine ⟨rfl, ⟨0x10, 0x11, 1, 0, 3, 0x32⟩, ?_, rfl, ?_⟩
  · decide +kernel
  · decide

theorem copy_on_write_never_split :
    ¬ CopiedOnWrite exampleMachine (UInt64.toNat 0x10000) (fun _ => 0) 2 exampleRequests
      exampleShared fun _ _ => 7 :=
  copy_on_write_never exampleMachine exampleShared _ _ 0x10000 2 exampleRequests exampleShared_copies

/-- The handler does not return, and by then it has copied the page at index sixteen and not the one at
index zero, which the mapping is read at. -/
theorem copy_on_write_wrong_page :
    ¬ CopiedOnWrite exampleMachine (UInt64.toNat 0x10000) (fun _ => 0) 2 exampleRequests
      exampleShared (fun _ _ => 7) ∧
    exampleShared.byteAt (fun _ _ => 7) 1 0 0 = 7 ∧
    (let (s, mem) := exampleShared.copyPages 1 2 exampleRequests 1 0x10 fun _ _ => 7
    s.byteAt mem 2 0 0 = 0 ∧ s.pages 2 0x10 = some (exampleRequests 2 0x10)) := by
  exact ⟨not_copied_of_copies exampleShared_copies, rfl, rfl, rfl⟩

end Ilobilix.Vmm
