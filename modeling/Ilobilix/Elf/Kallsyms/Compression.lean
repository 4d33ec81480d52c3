import Ilobilix.Elf.Kallsyms.Generator

/-!
# What the compression keeps

After every step each compressed name still stands for the name it was made of, and the counts are
those of the pairs in the compressed names modulo `2 ^ 32`. So a pair with a count other than zero
occurs in some name, and both of its codes stand for something. The slots are filled from the last
one down, but nothing depends on the order, nor on which pair is the best one.
-/

namespace Ilobilix.Elf.Kallsyms

/-! ## The counts -/

theorem foldl_learn (l : List ℕ) (profit : Profit) (p : ℕ) :
    l.foldl (fun profit p => Function.update profit p (profit p + 1)) profit p =
      profit p + BitVec.ofNat 32 (l.count p) := by
  induction l generalizing profit with
  | nil => simp
  | cons q l ih =>
      rw [List.foldl_cons, ih, List.count_cons, BitVec.ofNat_add]
      by_cases hq : q = p
      · subst hq
        rw [Function.update_self, if_pos (beq_self_eq_true q), BitVec.add_assoc,
          BitVec.add_comm 1 (BitVec.ofNat 32 (l.count q))]
        rfl
      · rw [Function.update_of_ne (Ne.symm hq), if_neg (by simpa using hq)]
        simp

theorem learnSymbol_apply (symbol : List UInt8) (profit : Profit) (p : ℕ) :
    learnSymbol symbol profit p = profit p + BitVec.ofNat 32 ((pairs symbol).count p) :=
  foldl_learn (pairs symbol) profit p

theorem forgetSymbol_apply (symbol : List UInt8) (profit : Profit) (p : ℕ) :
    forgetSymbol symbol profit p = profit p - BitVec.ofNat 32 ((pairs symbol).count p) := by
  rw [forgetSymbol]
  induction pairs symbol generalizing profit with
  | nil => simp
  | cons q l ih =>
      rw [List.foldl_cons, ih, List.count_cons, BitVec.ofNat_add]
      by_cases hq : q = p
      · subst hq
        rw [Function.update_self, if_pos (beq_self_eq_true q)]
        simp only [BitVec.sub_eq_add_neg, BitVec.neg_add, BitVec.add_assoc]
        rw [BitVec.add_comm (-1)]
        rfl
      · rw [Function.update_of_ne (Ne.symm hq), if_neg (by simpa using hq)]
        simp

/-- How often a pair occurs in the names. -/
def pairCount (table : List SymEntry) (p : ℕ) : ℕ := (table.flatMap fun s => pairs s.sym).count p

theorem pairCount_cons (s : SymEntry) (table : List SymEntry) (p : ℕ) :
    pairCount (s :: table) p = (pairs s.sym).count p + pairCount table p := by
  rw [pairCount, List.flatMap_cons, List.count_append, pairCount]

theorem buildInitialTokenTable_apply (table : List SymEntry) (p : ℕ) :
    buildInitialTokenTable table p = BitVec.ofNat 32 (pairCount table p) := by
  have hfold : ∀ profit : Profit, table.foldl (fun profit s => learnSymbol s.sym profit) profit p =
      profit p + BitVec.ofNat 32 (pairCount table p) := by
    induction table with
    | nil => simp [pairCount]
    | cons s table ih =>
        intro profit
        rw [List.foldl_cons, ih, learnSymbol_apply, pairCount_cons, BitVec.ofNat_add,
          BitVec.add_assoc]
  rw [buildInitialTokenTable, hfold]
  exact BitVec.zero_add _

theorem compressSymbol_profit (a b idx : UInt8) (symbol : List UInt8) (profit rest : Profit) (p : ℕ)
    (h : profit p = BitVec.ofNat 32 ((pairs symbol).count p) + rest p) :
    (compressSymbol a b idx symbol profit).2 p =
      BitVec.ofNat 32 ((pairs (compressSymbol a b idx symbol profit).1).count p) + rest p := by
  simp only [compressSymbol]
  split_ifs
  · change learnSymbol _ _ p = BitVec.ofNat 32 ((pairs (replacePair a b idx symbol)).count p) + _
    rw [learnSymbol_apply, forgetSymbol_apply, h, BitVec.add_comm _ (rest p), BitVec.add_sub_cancel,
      BitVec.add_comm]
  · exact h

theorem compressSymbols_profit (a b idx : UInt8) (table : List SymEntry) (profit rest : Profit)
    (p : ℕ) (h : profit p = BitVec.ofNat 32 (pairCount table p) + rest p) :
    (compressSymbols a b idx table profit).2 p =
      BitVec.ofNat 32 (pairCount (compressSymbols a b idx table profit).1 p) + rest p := by
  induction table generalizing profit rest with
  | nil => exact h
  | cons s table ih =>
      rw [pairCount_cons, BitVec.ofNat_add, BitVec.add_assoc] at h
      have hhead := compressSymbol_profit a b idx s.sym profit
        (fun p => BitVec.ofNat 32 (pairCount table p) + rest p) p h
      have htail := ih (compressSymbol a b idx s.sym profit).2
        (fun p => BitVec.ofNat 32 ((pairs (compressSymbol a b idx s.sym profit).1).count p) + rest p)
        (by rw [hhead, ← BitVec.add_assoc, ← BitVec.add_assoc, BitVec.add_comm (BitVec.ofNat 32 _)])
      rw [compressSymbols, htail, pairCount_cons, BitVec.ofNat_add, ← BitVec.add_assoc,
        BitVec.add_comm (BitVec.ofNat 32 _)]

/-! ## Pairs -/

theorem exists_of_mem_pairs {l : List UInt8} {p : ℕ} (h : p ∈ pairs l) :
    ∃ x y, p = pairIndex x y ∧ x ∈ l ∧ y ∈ l := by
  induction l using pairs.induct with
  | case1 x y l ih =>
      rw [pairs, List.mem_cons] at h
      rcases h with rfl | h
      · exact ⟨x, y, rfl, by simp, by simp⟩
      · obtain ⟨x', y', rfl, hx, hy⟩ := ih h
        exact ⟨x', y', rfl, List.mem_cons_of_mem _ hx, List.mem_cons_of_mem _ hy⟩
  | case2 l hl =>
      rw [pairs.eq_2 l hl] at h
      cases h

theorem pairIndex_low (x y : UInt8) : UInt8.ofNat (pairIndex x y &&& 0xFF) = x := by
  have hx := x.toNat_lt
  rw [pairIndex, show 0xFF = 2 ^ 8 - 1 from rfl, Nat.and_two_pow_sub_one_eq_mod, Nat.shiftLeft_eq,
    Nat.add_mul_mod_self_right, Nat.mod_eq_of_lt hx, UInt8.ofNat_toNat]

theorem pairIndex_high (x y : UInt8) : UInt8.ofNat (pairIndex x y >>> 8 &&& 0xFF) = y := by
  have hx := x.toNat_lt
  have hy := y.toNat_lt
  have hdiv : (x.toNat + y.toNat * 2 ^ 8) / 2 ^ 8 = y.toNat := by omega
  rw [pairIndex, show 0xFF = 2 ^ 8 - 1 from rfl, Nat.and_two_pow_sub_one_eq_mod, Nat.shiftLeft_eq,
    Nat.shiftRight_eq_div_pow, hdiv, Nat.mod_eq_of_lt hy, UInt8.ofNat_toNat]

/-- The codes of a pair with a count other than zero occur in a name. -/
theorem exists_of_profit {s : State} (h : ∀ p, s.profit p = BitVec.ofNat 32 (pairCount s.table p))
    {p : ℕ} (hp : s.profit p ≠ 0) : ∃ e ∈ s.table, ∃ x y, p = pairIndex x y ∧ x ∈ e.sym ∧ y ∈ e.sym := by
  have hcount : pairCount s.table p ≠ 0 := by
    intro hzero
    rw [h, hzero] at hp
    exact hp rfl
  have hmem := List.count_pos_iff.mp (Nat.pos_of_ne_zero hcount)
  obtain ⟨e, he, hpe⟩ := List.mem_flatMap.mp hmem
  exact ⟨e, he, exists_of_mem_pairs hpe⟩

/-! ## The invariant -/

/-- A compressed symbol and the one it was made of. -/
structure Stands (best : UInt8 → List UInt8) (e e' : SymEntry) : Prop where
  addr_eq : e'.addr = e.addr
  denotes : Denotes best e'.sym e.sym

theorem exists_of_mem_right {α β : Type} {R : α → β → Prop} {l : List α} {l' : List β}
    (h : List.Forall₂ R l l') {b : β} (hb : b ∈ l') : ∃ a ∈ l, R a b := by
  induction h with
  | nil => cases hb
  | @cons a b' l l' hab _ ih =>
      rcases List.mem_cons.mp hb with rfl | hb
      · exact ⟨a, List.mem_cons_self .., hab⟩
      · obtain ⟨a', ha', hR⟩ := ih hb
        exact ⟨a', List.mem_cons_of_mem _ ha', hR⟩

structure Compressed (original : List SymEntry) (s : State) : Prop where
  profit_eq : ∀ p, s.profit p = BitVec.ofNat 32 (pairCount s.table p)
  live : ∀ c, s.best c ≠ [] → ∃ t, Denotes s.best [c] t
  shape : ∀ c, s.best c = [] ∨ s.best c = [c] ∨ ∃ a b, s.best c = [a, b]
  terminal_iff : ∀ c, s.best c = [c] ↔ c ∈ original.flatMap SymEntry.sym
  stands : List.Forall₂ (Stands s.best) original s.table

/-- What `compress_symbols` makes of one symbol. -/
def SymEntry.replace (a b idx : UInt8) (s : SymEntry) : SymEntry :=
  { s with sym := if findToken a b s.sym then replacePair a b idx s.sym else s.sym }

theorem compressSymbols_fst (a b idx : UInt8) (table : List SymEntry) (profit : Profit) :
    (compressSymbols a b idx table profit).1 = table.map (SymEntry.replace a b idx) := by
  induction table generalizing profit with
  | nil => rfl
  | cons s table ih =>
      rw [compressSymbols, List.map_cons, ih, SymEntry.replace, compressSymbol]
      split_ifs <;> rfl

theorem Stands.replace {best : UInt8 → List UInt8} {a b idx : UInt8} (hrule : best idx = [a, b])
    {e e' : SymEntry} (h : Stands best e e') : Stands best e (e'.replace a b idx) := by
  refine ⟨h.addr_eq, ?_⟩
  rw [SymEntry.replace]
  split_ifs
  · exact h.denotes.replace hrule
  · exact h.denotes

/-- The step: a slot gets a pair of codes that are in use already. -/
theorem Compressed.slot {original : List SymEntry} {s s' : State} (h : Compressed original s)
    {i : UInt8} (hs : s.slot i = some s') : Compressed original s' := by
  simp only [State.slot] at hs
  split_ifs at hs with hi hprofit
  · obtain ⟨e, he, x, y, hbest, hx, hy⟩ := exists_of_profit h.profit_eq hprofit
    obtain ⟨o, -, hstands⟩ := exists_of_mem_right h.stands he
    obtain ⟨u, hu⟩ := hstands.denotes.exists_of_mem hx
    obtain ⟨v, hv⟩ := hstands.denotes.exists_of_mem hy
    simp only [hbest, pairIndex_low, pairIndex_high, Option.some.injEq] at hs
    subst hs
    -- the slot was empty, so that the table only grows
    have hgrow : ∀ c, s.best c ≠ [] → Function.update s.best i [x, y] c = s.best c := by
      intro c hc
      have hci : c ≠ i := fun hci => hc (by rw [hci, hi])
      exact Function.update_of_ne hci _ _
    have hrule : Function.update s.best i [x, y] i = [x, y] := Function.update_self ..
    refine ⟨fun p => ?_, fun c hc => ?_, fun c => ?_, fun c => ?_, ?_⟩
    · have hp := compressSymbols_profit x y i s.table s.profit (fun _ => 0) p
        ((h.profit_eq p).trans (BitVec.add_zero _).symm)
      exact hp.trans (BitVec.add_zero _)
    · by_cases hci : c = i
      · subst hci
        exact ⟨u ++ v, .pair hrule (hu.mono hgrow) (hv.mono hgrow)⟩
      · obtain ⟨t, ht⟩ := h.live c fun hnil => hc ((Function.update_of_ne hci _ _).trans hnil)
        exact ⟨t, ht.mono hgrow⟩
    · by_cases hci : c = i
      · subst hci
        exact .inr (.inr ⟨x, y, hrule⟩)
      · change Function.update s.best i [x, y] c = [] ∨ Function.update s.best i [x, y] c = [c] ∨
          ∃ a b, Function.update s.best i [x, y] c = [a, b]
        rw [Function.update_of_ne hci]
        exact h.shape c
    · rw [← h.terminal_iff]
      by_cases hci : c = i
      · subst hci
        simp [hi]
      · change Function.update s.best i [x, y] c = [c] ↔ _
        rw [Function.update_of_ne hci]
    · rw [compressSymbols_fst, List.forall₂_map_right_iff]
      exact h.stands.imp fun _ _ hst => Stands.replace hrule ⟨hst.addr_eq, hst.denotes.mono hgrow⟩
  · obtain rfl := Option.some.inj hs
    exact h

theorem Compressed.optimizeResult {original : List SymEntry} {s : State}
    (h : Compressed original s) (n : ℕ) : Compressed original (optimizeResult n s) := by
  induction n generalizing s with
  | zero => exact h
  | succ n ih =>
      rw [Kallsyms.optimizeResult]
      cases hs : s.slot (UInt8.ofNat n) with
      | none => exact h
      | some s' => exact ih (h.slot hs)

/-- At first the codes in use are those of the names, and each stands for itself. -/
theorem insertRealSymbols_eq (table : List SymEntry) (c : UInt8) :
    insertRealSymbols table c = if c ∈ table.flatMap SymEntry.sym then [c] else [] := by
  have hsym : ∀ (l : List UInt8) (best : UInt8 → List UInt8),
      l.foldl (fun best c => Function.update best c [c]) best c = if c ∈ l then [c] else best c := by
    intro l
    induction l with
    | nil => exact fun best => rfl
    | cons d l ih =>
        intro best
        rw [List.foldl_cons, ih]
        by_cases hl : c ∈ l
        · rw [if_pos hl, if_pos (List.mem_cons_of_mem _ hl)]
        · by_cases hd : c = d
          · subst hd
            rw [if_neg hl, Function.update_self, if_pos (List.mem_cons_self ..)]
          · rw [if_neg hl, Function.update_of_ne hd, if_neg]
            exact fun hmem => (List.mem_cons.mp hmem).elim hd hl
  have htable : ∀ best : UInt8 → List UInt8,
      table.foldl (fun best s => s.sym.foldl (fun best c => Function.update best c [c]) best) best c =
        if c ∈ table.flatMap SymEntry.sym then [c] else best c := by
    induction table with
    | nil => exact fun best => rfl
    | cons s table ih =>
        intro best
        rw [List.foldl_cons, ih, hsym, List.flatMap_cons]
        by_cases htable : c ∈ table.flatMap SymEntry.sym
        · rw [if_pos htable, if_pos (List.mem_append_right _ htable)]
        · by_cases hs : c ∈ s.sym
          · rw [if_neg htable, if_pos hs, if_pos (List.mem_append_left _ hs)]
          · rw [if_neg htable, if_neg hs, if_neg]
            exact fun hmem => (List.mem_append.mp hmem).elim hs htable
  exact htable _

theorem Compressed.initial (table : List SymEntry) :
    Compressed table ⟨table, buildInitialTokenTable table, insertRealSymbols table⟩ := by
  have hreal : ∀ e ∈ table, ∀ c ∈ e.sym, insertRealSymbols table c = [c] := by
    intro e he c hc
    rw [insertRealSymbols_eq, if_pos (List.mem_flatMap.mpr ⟨e, he, hc⟩)]
  refine ⟨buildInitialTokenTable_apply table, fun c hc => ?_, fun c => ?_, fun c => ?_, ?_⟩
  · have hterminal : insertRealSymbols table c = [c] := by
      change insertRealSymbols table c ≠ [] at hc
      rw [insertRealSymbols_eq] at hc ⊢
      split_ifs at hc ⊢ with hmem
      · rfl
      · exact absurd rfl hc
    exact ⟨[c], .terminal hterminal .nil⟩
  · change insertRealSymbols table c = [] ∨ insertRealSymbols table c = [c] ∨ _
    rw [insertRealSymbols_eq]
    split_ifs
    · exact .inr (.inl rfl)
    · exact .inl rfl
  · change insertRealSymbols table c = [c] ↔ _
    rw [insertRealSymbols_eq]
    split_ifs with hmem <;> simp [hmem]
  · rw [List.forall₂_same]
    exact fun e he => ⟨rfl, .of_terminal (hreal e he)⟩

/-- The compressed table stands for the original one. -/
theorem compressed (table : List SymEntry) : Compressed table (optimizeTokenTable table) :=
  (Compressed.initial table).optimizeResult 256

end Ilobilix.Elf.Kallsyms
