import Ilobilix.Foundation.LinkedList
import Ilobilix.Memory.Pmm.Model

/-!
# The intrusive free lists

`FreeLists z st free` ties the list heads and the `list` objects in memory to one list of block bases
per order. Each primitive of the allocator (`put`, `rem`, the `remove` lambda) has one lemma that says
how it edits those lists; none of them touches the page database.
-/

namespace Ilobilix.Pmm

open Lib

/-- The direct map address of page `p`. -/
def Zone.addr (z : Zone) (p : ℕ) : ℕ := p * pageSize + z.hhdm

theorem Zone.addr_injective (z : Zone) : Function.Injective z.addr := by
  intro p q h
  simp only [Zone.addr, pageSize] at h
  omega

@[simp] theorem Zone.addr_inj {z : Zone} {p q : ℕ} : z.addr p = z.addr q ↔ p = q :=
  z.addr_injective.eq_iff

/-- The heads and links in memory spell out the lists `free k` of block bases, and no block is in two
lists. -/
structure FreeLists (z : Zone) (st : State) (free : ℕ → List ℕ) : Prop where
  head : ∀ k, st.lists k = ((free k).map z.addr).head?
  linked : ∀ k, Linked (fun a => (st.mem a).next) (fun a => (st.mem a).prev) ((free k).map z.addr)
  nodup : ∀ k, (free k).Nodup
  separate : ∀ j k p, p ∈ free j → p ∈ free k → j = k

theorem FreeLists.initial (z : Zone) : FreeLists z State.initial (fun _ => []) where
  head _ := rfl
  linked _ := Linked.nil
  nodup _ := List.nodup_nil
  separate _ _ _ h := by simp at h

/-! ## Frame lemmas -/

@[simp] theorem setList_pfndb (st : State) (k : ℕ) (p : Option ℕ) :
    (st.setList k p).pfndb = st.pfndb := rfl

@[simp] theorem setList_mem (st : State) (k : ℕ) (p : Option ℕ) :
    (st.setList k p).mem = st.mem := rfl

@[simp] theorem setNode_pfndb (st : State) (a : ℕ) (n : Node) :
    (st.setNode a n).pfndb = st.pfndb := rfl

@[simp] theorem setNode_lists (st : State) (a : ℕ) (n : Node) :
    (st.setNode a n).lists = st.lists := rfl

@[simp] theorem setPage_mem (st : State) (i : ℕ) (pg : Page) : (st.setPage i pg).mem = st.mem := rfl

@[simp] theorem setPage_lists (st : State) (i : ℕ) (pg : Page) :
    (st.setPage i pg).lists = st.lists := rfl

@[simp] theorem setPrev_pfndb (st : State) (p v : Option ℕ) :
    (st.setPrev p v).pfndb = st.pfndb := by
  cases p <;> rfl

@[simp] theorem setPrev_lists (st : State) (p v : Option ℕ) :
    (st.setPrev p v).lists = st.lists := by
  cases p <;> rfl

@[simp] theorem setPrev_next (st : State) (p v : Option ℕ) (b : ℕ) :
    ((st.setPrev p v).mem b).next = (st.mem b).next := by
  cases p with
  | none => rfl
  | some a =>
      by_cases hb : b = a
      · subst hb
        simp [State.setPrev, State.setNode]
      · simp [State.setPrev, State.setNode, Function.update_of_ne hb]

theorem setPrev_prev (st : State) (p v : Option ℕ) (b : ℕ) :
    ((st.setPrev p v).mem b).prev = if p = some b then v else (st.mem b).prev := by
  cases p with
  | none => simp [State.setPrev]
  | some a =>
      by_cases hb : b = a
      · subst hb
        simp [State.setPrev, State.setNode]
      · simp [State.setPrev, State.setNode, Function.update_of_ne hb, Ne.symm hb]

@[simp] theorem put_pfndb (k a : ℕ) (st : State) : (put k a st).pfndb = st.pfndb := by
  simp [put]

@[simp] theorem remove_pfndb (k a : ℕ) (st : State) : (remove k a st).pfndb = st.pfndb := by
  simp only [remove, setPrev_pfndb]
  cases (st.mem a).prev <;> rfl

/-- The lists only depend on the heads and the `list` objects. -/
theorem FreeLists.setPage {z : Zone} {st : State} {free : ℕ → List ℕ} (h : FreeLists z st free)
    (i : ℕ) (pg : Page) : FreeLists z (st.setPage i pg) free where
  head := h.head
  linked := h.linked
  nodup := h.nodup
  separate := h.separate

/-- Writing a `list` object outside the free blocks leaves the lists alone. -/
theorem FreeLists.setNode {z : Zone} {st : State} {free : ℕ → List ℕ} (h : FreeLists z st free)
    {a : ℕ} (ha : ∀ k, ∀ p ∈ free k, z.addr p ≠ a) (n : Node) :
    FreeLists z (st.setNode a n) free where
  head := h.head
  linked k := by
    refine (h.linked k).congr ?_ ?_ <;>
    · intro b hb
      obtain ⟨p, hp, rfl⟩ := List.mem_map.mp hb
      simp only [State.setNode, Function.update_of_ne (ha k p hp)]
  nodup := h.nodup
  separate := h.separate

theorem FreeLists.nodup_addr {z : Zone} {st : State} {free : ℕ → List ℕ} (h : FreeLists z st free)
    (k : ℕ) : ((free k).map z.addr).Nodup := (h.nodup k).map z.addr_injective

/-! ## The primitives -/

section Primitives

variable {z : Zone} {st : State} {free : ℕ → List ℕ}

theorem put_next (st : State) (order a b : ℕ) :
    ((Pmm.put order a st).mem b).next = if b = a then st.lists order else (st.mem b).next := by
  by_cases hb : b = a <;> simp [Pmm.put, State.setNode, hb]

theorem put_prev (st : State) (order a b : ℕ) :
    ((Pmm.put order a st).mem b).prev =
      if st.lists order = some b then some a else if b = a then none else (st.mem b).prev := by
  simp only [Pmm.put, setList_mem, setPrev_prev]
  by_cases hb : b = a <;> simp [State.setNode, hb]

theorem node_ext {m n : Node} (hnext : m.next = n.next) (hprev : m.prev = n.prev) : m = n := by
  cases m
  cases n
  exact congr (congrArg Node.mk hprev) hnext

/-- `put` writes its block and the old head of the list. -/
theorem put_mem (st : State) {order a b : ℕ} (hb : b ≠ a) (hhead : st.lists order ≠ some b) :
    (Pmm.put order a st).mem b = st.mem b :=
  node_ext (by rw [put_next, if_neg hb]) (by rw [put_prev, if_neg hhead, if_neg hb])

/-- The lists stay separate when one of them gains a block that was in none. -/
theorem FreeLists.separate_cons (h : FreeLists z st free) {order p : ℕ} (hp : ∀ k, p ∉ free k)
    {j k q : ℕ} (hj : q ∈ Function.update free order (p :: free order) j)
    (hk : q ∈ Function.update free order (p :: free order) k) : j = k := by
  by_cases hqp : q = p
  · subst hqp
    have hin : ∀ i, q ∈ Function.update free order (q :: free order) i → i = order := by
      intro i hi
      by_contra hne
      rw [Function.update_of_ne hne] at hi
      exact hp i hi
    rw [hin j hj, hin k hk]
  · have hin : ∀ i, q ∈ Function.update free order (p :: free order) i → q ∈ free i := by
      intro i hi
      by_cases hio : i = order
      · subst hio
        simpa [hqp] using hi
      · rwa [Function.update_of_ne hio] at hi
    exact h.separate j k q (hin j hj) (hin k hk)

/-- `put` pushes a block that is in no list on the front of one. -/
theorem FreeLists.put (h : FreeLists z st free) (order : ℕ) {p : ℕ} (hp : ∀ k, p ∉ free k) :
    FreeLists z (Pmm.put order (z.addr p) st) (Function.update free order (p :: free order)) := by
  have hhead := h.head order
  have hne : ∀ k, ∀ b ∈ (free k).map z.addr, b ≠ z.addr p := by
    intro k b hb
    obtain ⟨q, hq, rfl⟩ := List.mem_map.mp hb
    exact fun heq => hp k (Zone.addr_inj.mp heq ▸ hq)
  refine ⟨?_, ?_, ?_, fun j k q => h.separate_cons hp⟩
  · intro k
    by_cases hk : k = order
    · subst hk
      simp [Pmm.put, State.setList]
    · simp [Pmm.put, State.setList, Function.update_of_ne hk, h.head k]
  · intro k
    by_cases hk : k = order
    · subst hk
      rw [Function.update_self, List.map_cons, ← List.nil_append (_ :: _)]
      refine Linked.insert (h.linked k) (h.nodup_addr k) ?_ ?_ ?_ ?_ ?_ ?_
      · simp [put_next, hhead]
      · have : st.lists k ≠ some (z.addr p) := by
          rw [hhead]
          exact fun hs => hne k _ (List.mem_of_head? hs) rfl
        simp [put_prev, this]
      · intro b hb _
        simp [put_next, hne k b hb]
      · simp
      · intro b hb hbh
        have : st.lists k ≠ some b := by rwa [hhead]
        simp [put_prev, this, hne k b hb]
      · intro b hbh
        simp [put_prev, hhead, hbh]
    · rw [Function.update_of_ne hk]
      refine (h.linked k).congr ?_ ?_
      · intro b hb
        simp [put_next, hne k b hb]
      · intro b hb
        -- the old head of `lists[order]` is not in list `k`
        have : st.lists order ≠ some b := by
          rw [hhead]
          intro hs
          obtain ⟨q, hq, rfl⟩ := List.mem_map.mp hb
          obtain ⟨q', hq', heq⟩ := List.mem_map.mp (List.mem_of_head? hs)
          rw [Zone.addr_inj] at heq
          exact hk (h.separate _ _ q hq (heq ▸ hq'))
        simp [put_prev, this, hne k b hb]
  · intro k
    by_cases hk : k = order
    · subst hk
      simp [h.nodup k, hp k]
    · rw [Function.update_of_ne hk]
      exact h.nodup k

/-- `put` writes no page outside the lists but its own. -/
theorem FreeLists.put_mem (h : FreeLists z st free) (order : ℕ) {p q : ℕ} (hq : ∀ k, q ∉ free k)
    (hqp : q ≠ p) : (Pmm.put order (z.addr p) st).mem (z.addr q) = st.mem (z.addr q) := by
  refine Pmm.put_mem st (fun heq => hqp (Zone.addr_inj.mp heq)) fun hs => hq order ?_
  rw [h.head order] at hs
  exact (List.mem_map_of_injective z.addr_injective).mp (List.mem_of_head? hs)

/-- Deleting blocks from one list keeps the lists separate. -/
theorem FreeLists.separate_sublist (h : FreeLists z st free) {order : ℕ} {l : List ℕ}
    (hl : ∀ q ∈ l, q ∈ free order) {j k q : ℕ} (hj : q ∈ Function.update free order l j)
    (hk : q ∈ Function.update free order l k) : j = k := by
  have hin : ∀ i, q ∈ Function.update free order l i → q ∈ free i := by
    intro i hi
    by_cases hio : i = order
    · subst hio
      exact hl q (by simpa using hi)
    · rwa [Function.update_of_ne hio] at hi
  exact h.separate j k q (hin j hj) (hin k hk)

/-- A memory that agrees with `st` on the other lists and spells out `l₁ ++ l₂` where `st` spelled
out `l₁ ++ p :: l₂` holds the lists without `p`. Nothing but the neighbours of `p` has been written. -/
theorem FreeLists.unlink (h : FreeLists z st free) {order p : ℕ} {l₁ l₂ : List ℕ}
    (hl : free order = l₁ ++ p :: l₂) {st' : State}
    (hlists : ∀ k, k ≠ order → st'.lists k = st.lists k)
    (hhead : st'.lists order = ((l₁ ++ l₂).map z.addr).head?)
    (hnext : ∀ b, ((l₁.map z.addr).getLast? ≠ some b → (st'.mem b).next = (st.mem b).next) ∧
      ((l₁.map z.addr).getLast? = some b → (st'.mem b).next = (l₂.map z.addr).head?))
    (hprev : ∀ b, ((l₂.map z.addr).head? ≠ some b → (st'.mem b).prev = (st.mem b).prev) ∧
      ((l₂.map z.addr).head? = some b → (st'.mem b).prev = (l₁.map z.addr).getLast?)) :
    FreeLists z st' (Function.update free order (l₁ ++ l₂)) ∧
      ∀ b ∉ (l₁ ++ l₂).map z.addr, st'.mem b = st.mem b := by
  have hsub : ∀ q ∈ l₁ ++ l₂, q ∈ free order := by
    intro q hq
    rw [hl]
    simp only [List.mem_append, List.mem_cons] at hq ⊢
    tauto
  -- a node of another list is neither neighbour of `p`
  have hother : ∀ k, k ≠ order → ∀ b ∈ (free k).map z.addr,
      (l₁.map z.addr).getLast? ≠ some b ∧ (l₂.map z.addr).head? ≠ some b := by
    intro k hk b hb
    obtain ⟨q, hq, rfl⟩ := List.mem_map.mp hb
    have hout : ∀ q' ∈ l₁ ++ l₂, z.addr q' ≠ z.addr q := fun q' hq' heq =>
      hk (h.separate _ _ q hq (Zone.addr_inj.mp heq ▸ hsub q' hq'))
    constructor
    · intro hs
      obtain ⟨q', hq', heq⟩ := List.mem_map.mp (List.mem_of_getLast? hs)
      exact hout q' (List.mem_append_left _ hq') heq
    · intro hs
      obtain ⟨q', hq', heq⟩ := List.mem_map.mp (List.mem_of_head? hs)
      exact hout q' (List.mem_append_right _ hq') heq
  have hmem : ∀ b ∉ (l₁ ++ l₂).map z.addr, st'.mem b = st.mem b := by
    intro b hb
    rw [List.map_append, List.mem_append, not_or] at hb
    exact node_ext ((hnext b).1 fun hs => hb.1 (List.mem_of_getLast? hs))
      ((hprev b).1 fun hs => hb.2 (List.mem_of_head? hs))
  refine ⟨⟨?_, ?_, ?_, fun j k q => h.separate_sublist hsub⟩, hmem⟩
  · intro k
    by_cases hk : k = order
    · subst hk
      rw [Function.update_self, hhead]
    · rw [Function.update_of_ne hk, hlists k hk, h.head k]
  · intro k
    by_cases hk : k = order
    · subst hk
      rw [Function.update_self, List.map_append]
      have hlink := h.linked k
      have hnd := h.nodup_addr k
      rw [hl, List.map_append, List.map_cons] at hlink hnd
      exact Linked.remove hlink hnd (fun b _ => (hnext b).1) (fun b => (hnext b).2)
        (fun b _ => (hprev b).1) (fun b => (hprev b).2)
    · rw [Function.update_of_ne hk]
      exact (h.linked k).congr (fun b hb => (hnext b).1 (hother k hk b hb).1)
        (fun b hb => (hprev b).1 (hother k hk b hb).2)
  · intro k
    by_cases hk : k = order
    · subst hk
      rw [Function.update_self]
      have hnd := h.nodup k
      rw [hl] at hnd
      exact hnd.sublist (List.Sublist.append_left (List.sublist_cons_self p l₂) l₁)
    · rw [Function.update_of_ne hk]
      exact h.nodup k

/-- `rem` pops the first block of a non-empty list. -/
theorem FreeLists.rem (h : FreeLists z st free) {order p : ℕ} {l : List ℕ}
    (hl : free order = p :: l) :
    ∃ st', Pmm.rem order st = .ok (st', z.addr p) ∧ st'.pfndb = st.pfndb ∧
      FreeLists z st' (Function.update free order l) ∧
      ∀ b ∉ l.map z.addr, st'.mem b = st.mem b := by
  have hhead : st.lists order = some (z.addr p) := by rw [h.head order, hl]; rfl
  have hnext : (st.mem (z.addr p)).next = (l.map z.addr).head? := by
    have hlink := h.linked order
    rw [hl, List.map_cons, ← List.nil_append (_ :: _)] at hlink
    exact hlink.next_eq
  refine ⟨(st.setList order (l.map z.addr).head?).setPrev (l.map z.addr).head? none, ?_, by simp, ?_⟩
  · simp only [Pmm.rem, hhead, deref, bind, Except.bind, hnext]
    rfl
  · refine h.unlink (show free order = [] ++ p :: l from hl) ?_ ?_ ?_ ?_
    · intro k hk
      simp [State.setList, Function.update_of_ne hk]
    · simp [State.setList]
    · simp
    · intro b
      simp only [setPrev_prev, setList_mem, List.map_nil, List.getLast?_nil]
      exact ⟨fun hb => if_neg hb, fun hb => if_pos hb⟩

/-- The `remove` lambda unlinks a block wherever it stands in its list. -/
theorem FreeLists.remove (h : FreeLists z st free) {order p : ℕ} {l₁ l₂ : List ℕ}
    (hl : free order = l₁ ++ p :: l₂) :
    FreeLists z (Pmm.remove order (z.addr p) st) (Function.update free order (l₁ ++ l₂)) ∧
      ∀ b ∉ (l₁ ++ l₂).map z.addr, (Pmm.remove order (z.addr p) st).mem b = st.mem b := by
  have hlink := h.linked order
  have hnd := h.nodup_addr order
  have hhead := h.head order
  rw [hl, List.map_append, List.map_cons] at hlink hnd hhead
  have hnext := hlink.next_eq
  have hprev := hlink.prev_eq
  cases hlast : (l₁.map z.addr).getLast? with
  | none =>
      obtain rfl : l₁ = [] := by simpa using hlast
      rw [hlast] at hprev
      have hst : Pmm.remove order (z.addr p) st =
          (st.setList order (l₂.map z.addr).head?).setPrev (l₂.map z.addr).head? none := by
        simp only [Pmm.remove, hprev, hnext, setList_mem]
      rw [hst]
      refine h.unlink hl ?_ ?_ ?_ ?_
      · intro k hk
        simp [State.setList, Function.update_of_ne hk]
      · simp [State.setList]
      · simp
      · intro b
        simp only [setPrev_prev, setList_mem, List.map_nil, List.getLast?_nil]
        exact ⟨fun hb => if_neg hb, fun hb => if_pos hb⟩
  | some a =>
      rw [hlast] at hprev
      -- the node before `p` is another node, so `p`'s own fields survive the first write
      have hap : z.addr p ≠ a := fun hpa =>
        (List.nodup_append.mp hnd).2.2 a (List.mem_of_getLast? hlast) a (by simp [hpa]) rfl
      have hst : Pmm.remove order (z.addr p) st =
          (st.setNext a (l₂.map z.addr).head?).setPrev (l₂.map z.addr).head? (some a) := by
        simp only [Pmm.remove, hprev, hnext, State.setNext, State.setNode,
          Function.update_of_ne hap]
      rw [hst]
      refine h.unlink hl ?_ ?_ ?_ ?_
      · intro k hk
        simp [State.setNext]
      · have : (l₁.map z.addr) ≠ [] := by
          intro hnil
          simp [hnil] at hlast
        simp [State.setNext, hhead, List.head?_append_of_ne_nil _ this]
      · intro b
        rw [hlast, setPrev_next]
        constructor
        · intro hb
          have hba : b ≠ a := fun hba => hb (by rw [hba])
          simp [State.setNext, State.setNode, Function.update_of_ne hba]
        · intro hb
          obtain rfl := Option.some.inj hb
          simp [State.setNext, State.setNode]
      · intro b
        have hkeep : ((st.setNext a (l₂.map z.addr).head?).mem b).prev = (st.mem b).prev := by
          by_cases hba : b = a
          · subst hba
            simp [State.setNext, State.setNode]
          · simp [State.setNext, State.setNode, Function.update_of_ne hba]
        rw [setPrev_prev, hkeep, hlast]
        exact ⟨fun hb => if_neg hb, fun hb => if_pos hb⟩

end Primitives

end Ilobilix.Pmm
