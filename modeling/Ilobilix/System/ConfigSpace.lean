import Ilobilix.Foundation.Except
import Ilobilix.Foundation.Nesting
import Ilobilix.System.Pci
import Mathlib.Data.Finite.Prod

/-!
# Enumeration of a configuration space

Here the configuration space is the bytes that the functions answer with. The constructor of
`entity` walks along the capabilities of a function by their pointers, and `enum_func` enumerates
the bus behind a bridge by the number in its register. Neither remembers where it has been: a
capability that points back, or a bridge with the number of a bus it is behind, keeps the kernel
busy forever.

An unknown header type makes the kernel panic, which ends the enumeration as well. So the calls that
count (`Calls`) are those before a function that panics, or that has one behind it. `ends_iff` says
that the enumeration ends exactly if none of them is made again inside itself.
-/

namespace Ilobilix.Pci

open Relation

/-- The root buses, the bytes of the configuration spaces, and for each function what is in
`is_pcie` and `is_secondary` of a new `entity`. -/
structure Space where
  rbs : List (UInt16 × UInt8)
  byte : Fn → ℕ → UInt8
  junk : Fn → Bool × Bool

/-- What the constructor of `entity` finds out. -/
structure Entity where
  caps : List (UInt8 × ℕ)
  isPcie : Bool
  isSecondary : Bool

namespace Space

/-- A bus, and whether it is behind a bridge with `is_pcie && is_secondary`. -/
structure Bus where
  seg : UInt16
  id : UInt8
  limited : Bool

variable (m : Space) (f : Fn)

def read16 (offset : ℕ) : UInt16 :=
  (m.byte f (offset + 1)).toUInt16 <<< 8 ||| (m.byte f offset).toUInt16

def venid : UInt16 := m.read16 f 0x00

def devid : UInt16 := m.read16 f 0x02

def status : UInt16 := m.read16 f 0x06

def header : UInt8 := m.byte f 0x0E

def secondaryBus : UInt8 := m.byte f 0x19

/-! ## Capabilities -/

/-- The offset of the first capability. Without the bit in the status register there is none. -/
def firstCap : ℕ := if m.status f &&& 0x10 ≠ 0 then (m.read16 f 0x34 &&& 0xFC).toNat else 0

def nextCap (offset : ℕ) : ℕ := (m.read16 f offset >>> 8 &&& 0xFC).toNat

def addCap (e : Entity) (offset : ℕ) : Entity :=
  let type := (m.read16 f offset).toUInt8
  let caps := e.caps ++ [(type, offset)]
  if type = 0x10 then
    { caps, isPcie := true, isSecondary := Config.isPort (m.read16 f (offset + 2)) }
  else { e with caps }

def walk : ℕ → ℕ → Entity → Except Fault Entity
  | 0, _, _ => .error .fuel
  | fuel + 1, offset, e =>
      if offset = 0 then .ok e else walk fuel (m.nextCap f offset) (m.addCap f e offset)

/-- The constructor of `entity`. -/
def entity (fuel : ℕ) : Except Fault Entity :=
  m.walk f fuel (m.firstCap f) ⟨[], (m.junk f).1, (m.junk f).2⟩

/-! ## Enumeration -/

/-- The calls of a loop one after the other, with what each of them puts into the tables. -/
def visitAll {α β : Type} (visit : α → Except Fault (List β)) : List α → Except Fault (List β)
  | [] => .ok []
  | a :: l => visit a >>= fun first => visitAll visit l >>= fun rest => .ok (first ++ rest)

def headerType : UInt8 := m.header f &&& 0x7F

def enumFunc (enumBus : Bus → Except Fault (List (Fn × Entity))) (fuel : ℕ) :
    Except Fault (List (Fn × Entity)) :=
  if m.venid f = 0xFFFF ∨ m.devid f = 0xFFFF then .ok []
  else if m.headerType f = 0 then m.entity f fuel >>= fun e => .ok [(f, e)]
  else if m.headerType f = 1 then
    m.entity f fuel >>= fun e =>
      (if m.secondaryBus f ≠ 0 then enumBus ⟨f.seg, m.secondaryBus f, e.isPcie && e.isSecondary⟩
        else .ok []) >>= fun behind => .ok (behind ++ [(f, e)])
  else .error .panic

def enumDev (enumBus : Bus → Except Fault (List (Fn × Entity))) (fuel : ℕ) (bus : Bus) (dev : ℕ) :
    Except Fault (List (Fn × Entity)) :=
  let f : Fn := ⟨bus.seg, bus.id, dev, 0⟩
  if m.venid f = 0xFFFF then .ok []
  else if m.header f &&& 0x80 ≠ 0 then
    visitAll (fun func => m.enumFunc { f with func } enumBus fuel) (List.range 8)
  else m.enumFunc f enumBus fuel

def enumBus : ℕ → Bus → Except Fault (List (Fn × Entity))
  | 0, _ => .error .fuel
  | fuel + 1, bus => visitAll (m.enumDev (enumBus fuel) fuel bus) (List.range (if bus.limited then 1 else 32))

def root (rb : UInt16 × UInt8) : Bus := ⟨rb.1, rb.2, false⟩

/-- The task `pci.enumerate`. -/
def enumerate (fuel : ℕ) : Except Fault (List (Fn × Entity)) :=
  visitAll (fun rb => m.enumBus fuel (root rb)) m.rbs

/-- With enough fuel the enumeration is not cut off. -/
def Ends : Prop := ∃ fuel, m.enumerate fuel ≠ .error .fuel

/-! ## The calls -/

/-- The functions that `enum_func` is called with for a bus, in order. -/
def functions (bus : Bus) : List Fn :=
  (List.range (if bus.limited then 1 else 32)).flatMap fun dev =>
    let f : Fn := ⟨bus.seg, bus.id, dev, 0⟩
    if m.venid f = 0xFFFF then []
    else if m.header f &&& 0x80 ≠ 0 then (List.range 8).map fun func => { f with func }
    else [f]

def Answers : Prop := m.venid f ≠ 0xFFFF ∧ m.devid f ≠ 0xFFFF

instance : Decidable (m.Answers f) := inferInstanceAs (Decidable (_ ∧ _))

/-- The offsets of the capabilities from an offset on. -/
inductive Chain : ℕ → List ℕ → Prop
  | nil : Chain 0 []
  | cons {offset : ℕ} {rest : List ℕ} (hne : offset ≠ 0) (h : Chain (m.nextCap f offset) rest) :
      Chain offset (offset :: rest)

/-- The entity of a function with these capabilities. -/
def entityOf (chain : List ℕ) : Entity := chain.foldl (m.addCap f) ⟨[], (m.junk f).1, (m.junk f).2⟩

/-- The bus behind a bridge. -/
def Behind (bus : Bus) : Prop :=
  m.Answers f ∧ m.headerType f = 1 ∧ m.secondaryBus f ≠ 0 ∧ ∃ chain, m.Chain f (m.firstCap f) chain ∧
    bus = ⟨f.seg, m.secondaryBus f, (m.entityOf f chain).isPcie && (m.entityOf f chain).isSecondary⟩

/-- The header type is unknown. -/
def Unknown : Prop := m.Answers f ∧ m.headerType f ≠ 0 ∧ m.headerType f ≠ 1

/-- On the bus, or behind one of its bridges, there is an unknown header type. -/
def HasUnknown (bus : Bus) : Prop :=
  ∃ bus', ReflTransGen (fun b b' => ∃ f ∈ m.functions b, m.Behind f b') bus bus' ∧
    ∃ f ∈ m.functions bus', m.Unknown f

/-- The kernel does not panic at the function or behind it. -/
def Clean : Prop := ¬ m.Unknown f ∧ ∀ bus, m.Behind f bus → ¬ m.HasUnknown bus

/-- A call of `enum_bus`, or a turn of the loop over the capabilities of a function. -/
inductive Call
  | bus (bus : Bus)
  | cap (f : Fn) (offset : ℕ)

/-- One call makes the other, unless the kernel panics before. -/
inductive Calls : Call → Call → Prop
  | next {f : Fn} {offset : ℕ} (hne : offset ≠ 0) : Calls (.cap f offset) (.cap f (m.nextCap f offset))
  | entity {bus : Bus} {before after : List Fn} {f : Fn} (hsplit : m.functions bus = before ++ f :: after)
      (hclean : ∀ g ∈ before, m.Clean g) (hanswers : m.Answers f)
      (hheader : m.headerType f = 0 ∨ m.headerType f = 1) : Calls (.bus bus) (.cap f (m.firstCap f))
  | behind {bus bus' : Bus} {before after : List Fn} {f : Fn}
      (hsplit : m.functions bus = before ++ f :: after) (hclean : ∀ g ∈ before, m.Clean g)
      (hbehind : m.Behind f bus') : Calls (.bus bus) (.bus bus')

/-- The root buses that are enumerated, unless the kernel panics before. -/
def Starts (call : Call) : Prop :=
  ∃ before rb after, m.rbs = before ++ rb :: after ∧ (∀ r ∈ before, ¬ m.HasUnknown (root r)) ∧
    call = .bus (root rb)

/-- No bus is enumerated again inside its own enumeration, and no walk comes to a capability again. -/
def Acyclic : Prop := ∀ n n', m.Starts n → ReflTransGen m.Calls n n' → ¬ TransGen m.Calls n' n'

/-! ## Loops over calls -/

section

variable {α β : Type} {visit visit' : α → Except Fault (List β)} {l : List α}

theorem visitAll_append (l l' : List α) : visitAll visit (l ++ l') =
    visitAll visit l >>= fun first => visitAll visit l' >>= fun rest => .ok (first ++ rest) := by
  induction l with
  | nil =>
      rw [List.nil_append]
      cases h : visitAll visit l' <;> rfl
  | cons a l ih =>
      rw [List.cons_append, visitAll, visitAll, ih]
      cases visit a with
      | error e => rfl
      | ok first =>
          cases visitAll visit l with
          | error e => rfl
          | ok rest =>
              cases visitAll visit l' with
              | error e => rfl
              | ok last => exact congrArg Except.ok (List.append_assoc first rest last).symm

theorem visitAll_map {γ : Type} (g : γ → α) (l : List γ) :
    visitAll visit (l.map g) = visitAll (fun c => visit (g c)) l := by
  induction l with
  | nil => rfl
  | cons c l ih => rw [List.map_cons, visitAll, visitAll, ih]

theorem visitAll_singleton (a : α) : visitAll visit [a] = visit a := by
  rw [visitAll, visitAll]
  cases visit a with
  | error e => rfl
  | ok first => exact congrArg Except.ok (List.append_nil first)

/-- A loop in a loop is one loop. -/
theorem visitAll_flatMap {γ : Type} (g : γ → List α) (l : List γ) :
    visitAll visit (l.flatMap g) = visitAll (fun c => visitAll visit (g c)) l := by
  induction l with
  | nil => rfl
  | cons c l ih => rw [List.flatMap_cons, visitAll_append, visitAll, ih]

theorem visitAll_eq_ok {r : List β} (h : visitAll visit l = .ok r) : ∀ a ∈ l, ∃ r, visit a = .ok r := by
  induction l generalizing r with
  | nil => exact fun a ha => absurd ha List.not_mem_nil
  | cons b l ih =>
      rw [visitAll] at h
      obtain ⟨first, hfirst, h⟩ := Except.bind_eq_ok_iff.mp h
      obtain ⟨rest, hrest, -⟩ := Except.bind_eq_ok_iff.mp h
      intro a ha
      obtain rfl | ha := List.mem_cons.mp ha
      · exact ⟨first, hfirst⟩
      · exact ih hrest a ha

/-- A loop that ends with an error does so in one of its calls, and those before have returned. -/
theorem exists_of_visitAll_eq_error {e : Fault} (h : visitAll visit l = .error e) :
    ∃ before a after, l = before ++ a :: after ∧ (∀ b ∈ before, ∃ r, visit b = .ok r) ∧
      visit a = .error e := by
  induction l with
  | nil => cases h
  | cons b l ih =>
      rw [visitAll] at h
      obtain h | ⟨first, hfirst, h⟩ := Except.bind_eq_error_iff.mp h
      · exact ⟨[], b, l, rfl, fun _ hmem => absurd hmem List.not_mem_nil, h⟩
      · obtain h | ⟨rest, -, h⟩ := Except.bind_eq_error_iff.mp h
        · obtain ⟨before, a, after, rfl, hbefore, ha⟩ := ih h
          exact ⟨b :: before, a, after, rfl, List.forall_mem_cons.mpr ⟨⟨first, hfirst⟩, hbefore⟩, ha⟩
        · cases h

/-- A loop is cut off in one of its calls, unless the kernel panics before. -/
theorem visitAll_eq_fuel {before after : List α} {a : α} (hbefore : ∀ b ∈ before, visit b ≠ .error .panic)
    (ha : visit a = .error .fuel) : visitAll visit (before ++ a :: after) = .error .fuel := by
  induction before with
  | nil =>
      rw [List.nil_append, visitAll, ha]
      rfl
  | cons b before ih =>
      obtain ⟨hb, hbefore⟩ := List.forall_mem_cons.mp hbefore
      rw [List.cons_append, visitAll, ih hbefore]
      cases hvisit : visit b with
      | ok first => rfl
      | error e =>
          cases e with
          | fuel => rfl
          | panic => exact absurd hvisit hb

/-! ## Runs with more fuel -/

/-- The second run is the first one, unless that is cut off. -/
def Extends (x y : Except Fault α) : Prop := x ≠ .error .fuel → y = x

theorem Extends.bind {x y : Except Fault α} {g g' : α → Except Fault β} (hxy : Extends x y)
    (h : ∀ a, Extends (g a) (g' a)) : Extends (x >>= g) (y >>= g') := by
  intro hne
  have hx : x ≠ .error .fuel := fun hx => hne (Except.bind_eq_error_iff.mpr (.inl hx))
  rw [hxy hx]
  cases x with
  | error e => rfl
  | ok a => exact h a hne

theorem Extends.visitAll (h : ∀ a, Extends (visit a) (visit' a)) (l : List α) :
    Extends (Space.visitAll visit l) (Space.visitAll visit' l) := by
  induction l with
  | nil => exact fun _ => rfl
  | cons a l ih => exact (h a).bind fun _ => ih.bind fun _ _ => rfl

end

variable {m : Space} {f : Fn}

theorem walk_extends (fuel offset : ℕ) (e : Entity) :
    Extends (m.walk f fuel offset e) (m.walk f (fuel + 1) offset e) := by
  induction fuel generalizing offset e with
  | zero => exact fun h => absurd rfl h
  | succ fuel ih =>
      rw [walk, walk]
      split
      · exact fun _ => rfl
      · exact ih _ _

theorem enumFunc_extends {enumBus enumBus' : Bus → Except Fault (List (Fn × Entity))} {fuel : ℕ}
    (h : ∀ bus, Extends (enumBus bus) (enumBus' bus)) (f : Fn) :
    Extends (m.enumFunc f enumBus fuel) (m.enumFunc f enumBus' (fuel + 1)) := by
  unfold enumFunc
  split
  · exact fun _ => rfl
  · split
    · exact (walk_extends fuel _ _).bind fun _ _ => rfl
    · split
      · refine (walk_extends fuel _ _).bind fun e => Extends.bind ?_ fun _ _ => rfl
        split
        · exact h _
        · exact fun _ => rfl
      · exact fun _ => rfl

/-- The functions of a bus in one loop. -/
theorem enumBus_succ (fuel : ℕ) (bus : Bus) : m.enumBus (fuel + 1) bus =
    visitAll (fun f => m.enumFunc f (m.enumBus fuel) fuel) (m.functions bus) := by
  rw [enumBus, functions, visitAll_flatMap]
  congr 1
  funext dev
  unfold enumDev
  dsimp only
  split
  · rfl
  · split
    · rw [visitAll_map]
    · rw [visitAll_singleton]

theorem enumBus_extends (fuel : ℕ) (bus : Bus) :
    Extends (m.enumBus fuel bus) (m.enumBus (fuel + 1) bus) := by
  induction fuel generalizing bus with
  | zero => exact fun h => absurd rfl h
  | succ fuel ih =>
      rw [enumBus_succ, enumBus_succ]
      exact Extends.visitAll (enumFunc_extends ih) _

/-! ## The walk along the capabilities -/

theorem Chain.unique {offset : ℕ} {l l' : List ℕ} (h : m.Chain f offset l) (h' : m.Chain f offset l') :
    l = l' := by
  induction h generalizing l' with
  | nil =>
      cases h' with
      | nil => rfl
      | cons hne _ => exact absurd rfl hne
  | cons hne _ ih =>
      cases h' with
      | nil => exact absurd rfl hne
      | cons _ h' => rw [ih h']

/-- The walk returns with the capabilities in order. -/
theorem walk_eq_ok_iff {fuel offset : ℕ} {e e' : Entity} : m.walk f fuel offset e = .ok e' ↔
    ∃ l, m.Chain f offset l ∧ l.length < fuel ∧ e' = l.foldl (m.addCap f) e := by
  induction fuel generalizing offset e with
  | zero => exact ⟨nofun, fun ⟨_, _, hlt, _⟩ => absurd hlt (Nat.not_lt_zero _)⟩
  | succ fuel ih =>
      rw [walk]
      split
      · subst offset
        constructor
        · rintro ⟨⟩
          exact ⟨[], .nil, fuel.succ_pos, rfl⟩
        · rintro ⟨l, hl, -, rfl⟩
          rw [hl.unique .nil]
          rfl
      · rw [ih]
        constructor
        · rintro ⟨l, hl, hlt, rfl⟩
          exact ⟨offset :: l, .cons ‹_› hl, Nat.succ_lt_succ hlt, rfl⟩
        · rintro ⟨l, hl, hlt, rfl⟩
          cases hl with
          | nil => exact absurd rfl ‹¬ _›
          | cons _ hl => exact ⟨_, hl, Nat.lt_of_succ_lt_succ hlt, rfl⟩

theorem walk_ne_panic (fuel offset : ℕ) (e : Entity) : m.walk f fuel offset e ≠ .error .panic := by
  induction fuel generalizing offset e with
  | zero => nofun
  | succ fuel ih =>
      rw [walk]
      split
      · nofun
      · exact ih _ _

/-- The walk is cut off exactly if the capabilities do not end in time. -/
theorem walk_eq_fuel_iff {fuel offset : ℕ} {e : Entity} : m.walk f fuel offset e = .error .fuel ↔
    ¬ ∃ l, m.Chain f offset l ∧ l.length < fuel := by
  cases h : m.walk f fuel offset e with
  | ok e' =>
      obtain ⟨l, hl, hlt, -⟩ := walk_eq_ok_iff.mp h
      exact ⟨nofun, fun hnone => absurd ⟨l, hl, hlt⟩ hnone⟩
  | error e' =>
      cases e' with
      | panic => exact absurd h (walk_ne_panic fuel offset e)
      | fuel =>
          refine iff_of_true rfl fun ⟨l, hl, hlt⟩ => ?_
          rw [walk_eq_ok_iff.mpr ⟨l, hl, hlt, rfl⟩] at h
          cases h

theorem entity_eq_ok_iff {fuel : ℕ} {e : Entity} : m.entity f fuel = .ok e ↔
    ∃ l, m.Chain f (m.firstCap f) l ∧ l.length < fuel ∧ e = m.entityOf f l := walk_eq_ok_iff

/-! ## The calls of `enum_func` -/

section

variable {enumBus : Bus → Except Fault (List (Fn × Entity))} {fuel : ℕ}

theorem enumFunc_eq_panic (h : m.enumFunc f enumBus fuel = .error .panic) :
    m.Unknown f ∨ ∃ bus, m.Behind f bus ∧ enumBus bus = .error .panic := by
  unfold enumFunc at h
  split at h
  · cases h
  · have hanswers : m.Answers f := not_or.mp ‹_›
    split at h
    · obtain h | ⟨e, -, h⟩ := Except.bind_eq_error_iff.mp h
      · exact absurd h (walk_ne_panic _ _ _)
      · cases h
    · split at h
      · obtain h | ⟨e, he, h⟩ := Except.bind_eq_error_iff.mp h
        · exact absurd h (walk_ne_panic _ _ _)
        · obtain h | ⟨_, -, h⟩ := Except.bind_eq_error_iff.mp h
          · split at h
            · obtain ⟨l, hl, -, rfl⟩ := entity_eq_ok_iff.mp he
              exact .inr ⟨_, ⟨hanswers, ‹_›, ‹_›, l, hl, rfl⟩, h⟩
            · cases h
          · cases h
      · exact .inl ⟨hanswers, ‹_›, ‹_›⟩

/-- A call that is cut off is so in the walk along the capabilities or behind the bridge. -/
theorem enumFunc_eq_fuel (h : m.enumFunc f enumBus fuel = .error .fuel) : m.Answers f ∧
    (m.headerType f = 0 ∨ m.headerType f = 1) ∧
    ((¬ ∃ l, m.Chain f (m.firstCap f) l ∧ l.length < fuel) ∨
      ∃ bus, m.Behind f bus ∧ enumBus bus = .error .fuel) := by
  unfold enumFunc at h
  split at h
  · cases h
  · have hanswers : m.Answers f := not_or.mp ‹_›
    split at h
    · obtain h | ⟨e, -, h⟩ := Except.bind_eq_error_iff.mp h
      · exact ⟨hanswers, .inl ‹_›, .inl (walk_eq_fuel_iff.mp h)⟩
      · cases h
    · split at h
      · refine ⟨hanswers, .inr ‹_›, ?_⟩
        obtain h | ⟨e, he, h⟩ := Except.bind_eq_error_iff.mp h
        · exact .inl (walk_eq_fuel_iff.mp h)
        · obtain h | ⟨_, -, h⟩ := Except.bind_eq_error_iff.mp h
          · split at h
            · obtain ⟨l, hl, -, rfl⟩ := entity_eq_ok_iff.mp he
              exact .inr ⟨_, ⟨hanswers, ‹_›, ‹_›, l, hl, rfl⟩, h⟩
            · cases h
          · cases h
      · cases h

/-- The constructor of `entity` is cut off. -/
theorem enumFunc_of_chain (hanswers : m.Answers f) (hheader : m.headerType f = 0 ∨ m.headerType f = 1)
    (h : ¬ ∃ l, m.Chain f (m.firstCap f) l ∧ l.length < fuel) :
    m.enumFunc f enumBus fuel = .error .fuel := by
  have hentity : m.entity f fuel = .error .fuel := walk_eq_fuel_iff.mpr h
  rw [enumFunc, if_neg (not_or.mpr hanswers), hentity]
  obtain hheader | hheader := hheader
  · rw [if_pos hheader]
    rfl
  · rw [hheader]
    rfl

/-- A call for a bridge ends with the error behind it, if it gets that far. -/
theorem enumFunc_of_behind {bus : Bus} (hbehind : m.Behind f bus) {e : Fault} (h : enumBus bus = .error e) :
    m.enumFunc f enumBus fuel = .error e ∨ m.enumFunc f enumBus fuel = .error .fuel := by
  obtain ⟨hanswers, hheader, hsecondary, l, hl, rfl⟩ := hbehind
  by_cases hlt : l.length < fuel
  · refine .inl ?_
    rw [enumFunc, if_neg (not_or.mpr hanswers), hheader, entity_eq_ok_iff.mpr ⟨l, hl, hlt, rfl⟩]
    change ((if m.secondaryBus f ≠ 0 then enumBus _ else _) >>= _) = _
    rw [if_pos hsecondary, h]
    rfl
  · refine .inr (enumFunc_of_chain hanswers (.inr hheader) ?_)
    rintro ⟨l', hl', hlt'⟩
    exact hlt (hl.unique hl' ▸ hlt')

end

/-! ## The machine of a configuration space -/

open Classical in
/-- The capabilities of a function, if the walk along them ends. -/
noncomputable def chainOf (m : Space) (f : Fn) : List ℕ :=
  if h : ∃ l, m.Chain f (m.firstCap f) l then h.choose else []

theorem Chain.chainOf_eq {l : List ℕ} (h : m.Chain f (m.firstCap f) l) : m.chainOf f = l := by
  have hex : ∃ l, m.Chain f (m.firstCap f) l := ⟨l, h⟩
  rw [chainOf, dif_pos hex]
  exact hex.choose_spec.unique h

/-- What a function answers, with its capabilities in a list. -/
noncomputable def decode (m : Space) : Machine where
  rbs := m.rbs
  junk := m.junk
  config f :=
    { venid := m.venid f
      devid := m.devid f
      header := m.header f
      caps := (m.chainOf f).map fun offset => ((m.read16 f offset).toUInt8, m.read16 f (offset + 2))
      secondaryBus := m.secondaryBus f }

/-- The two flags after the walk. -/
theorem flags_decode {l : List ℕ} (h : m.Chain f (m.firstCap f) l) :
    (m.decode.config f).flags (m.decode.junk f) = ((m.entityOf f l).isPcie, (m.entityOf f l).isSecondary) := by
  have hfold : ∀ (l : List ℕ) (e : Entity),
      (l.map fun offset => ((m.read16 f offset).toUInt8, m.read16 f (offset + 2))).foldl
          (fun flags cap => if cap.1 = 0x10 then (true, Config.isPort cap.2) else flags)
          (e.isPcie, e.isSecondary) =
        ((l.foldl (m.addCap f) e).isPcie, (l.foldl (m.addCap f) e).isSecondary) := by
    intro l
    induction l with
    | nil => exact fun e => rfl
    | cons offset l ih =>
        intro e
        rw [List.map_cons, List.foldl_cons, List.foldl_cons, ← ih]
        congr 1
        unfold addCap
        dsimp only
        split <;> rfl
  change ((m.chainOf f).map _).foldl _ (m.junk f) = _
  rw [h.chainOf_eq]
  exact hfold l ⟨[], (m.junk f).1, (m.junk f).2⟩

/-- A function is put into the table for its header type. -/
def register (m : Space) (t : Tables) (entry : Fn × Entity) : Tables :=
  if m.headerType entry.1 = 0 then { t with devs := Function.update t.devs entry.1.key (some entry.1) }
  else { t with brdgs := Function.update t.brdgs entry.1.key (some entry.1) }

/-- A loop of the machine puts into the tables what the calls return. -/
theorem visitAll_register {α : Type} {visit : α → Except Fault (List (Fn × Entity))}
    {step : Tables → α → Except Fault Tables}
    (h : ∀ a r, visit a = .ok r → ∀ t, step t a = .ok (r.foldl m.register t)) {l : List α}
    {r : List (Fn × Entity)} (hr : visitAll visit l = .ok r) (t : Tables) :
    l.foldlM step t = .ok (r.foldl m.register t) := by
  induction l generalizing r t with
  | nil =>
      cases hr
      rfl
  | cons a l ih =>
      rw [visitAll] at hr
      obtain ⟨first, hfirst, hr⟩ := Except.bind_eq_ok_iff.mp hr
      obtain ⟨rest, hrest, hr⟩ := Except.bind_eq_ok_iff.mp hr
      cases hr
      rw [List.foldlM_cons, h a first hfirst t, List.foldl_append]
      exact ih hrest _

theorem enumFunc_decode {enumBus : Bus → Except Fault (List (Fn × Entity))}
    {enumBus' : Pci.Bus → Tables → Except Fault Tables} {fuel : ℕ} {bus : Pci.Bus} {dev func : ℕ}
    (h : ∀ bus bus' r, bus'.seg = bus.seg → bus'.id = bus.id → m.decode.devs32 bus' = !bus.limited →
      enumBus bus = .ok r → ∀ t, enumBus' bus' t = .ok (r.foldl m.register t))
    {r : List (Fn × Entity)} (hr : m.enumFunc ⟨bus.seg, bus.id, dev, func⟩ enumBus fuel = .ok r)
    (t : Tables) : m.decode.enumFunc enumBus' bus dev func t = .ok (r.foldl m.register t) := by
  obtain ⟨f, hf⟩ : ∃ f : Fn, f = ⟨bus.seg, bus.id, dev, func⟩ := ⟨_, rfl⟩
  rw [← hf] at hr
  unfold enumFunc at hr
  change (if m.venid _ = 0xFFFF ∨ m.devid _ = 0xFFFF then _ else if m.headerType _ = 0 then _
    else if m.headerType _ = 1 then _ else _) = _
  rw [← hf]
  split at hr
  · cases hr
    rw [if_pos ‹_›]
    rfl
  · rw [if_neg ‹_›]
    split at hr
    · obtain ⟨e, -, hr⟩ := Except.bind_eq_ok_iff.mp hr
      cases hr
      have hdevice : m.headerType f = 0 := ‹_›
      rw [if_pos hdevice, List.foldl_cons, List.foldl_nil, register, if_pos hdevice]
    · have hbridge : m.headerType f ≠ 0 := ‹_›
      rw [if_neg hbridge]
      split at hr
      · obtain ⟨e, he, hr⟩ := Except.bind_eq_ok_iff.mp hr
        obtain ⟨behind, hbehind, hr⟩ := Except.bind_eq_ok_iff.mp hr
        cases hr
        obtain ⟨l, hl, -, rfl⟩ := entity_eq_ok_iff.mp he
        have hrun : (if m.secondaryBus f ≠ 0 then enumBus' ⟨bus.seg, m.secondaryBus f, .bridge f⟩ t
            else .ok t) = .ok (behind.foldl m.register t) := by
          split at hbehind
          · rw [if_pos ‹_›]
            refine h _ _ behind (congrArg Fn.seg hf).symm rfl ?_ hbehind t
            change (!m.decode.limited f) = _
            rw [Machine.limited, flags_decode hl]
          · cases hbehind
            rw [if_neg ‹_›]
            rfl
        rw [if_pos ‹_›, List.foldl_append, List.foldl_cons, List.foldl_nil, register, if_neg hbridge]
        change ((if m.secondaryBus f ≠ 0 then enumBus' ⟨bus.seg, m.secondaryBus f, .bridge f⟩ t
          else .ok t) >>= _) = _
        rw [hrun]
        rfl
      · cases hr

theorem enumDev_decode {enumBus : Bus → Except Fault (List (Fn × Entity))}
    {enumBus' : Pci.Bus → Tables → Except Fault Tables} {fuel : ℕ} {bus : Bus} {bus' : Pci.Bus} {dev : ℕ}
    (hseg : bus'.seg = bus.seg) (hid : bus'.id = bus.id)
    (h : ∀ bus bus' r, bus'.seg = bus.seg → bus'.id = bus.id → m.decode.devs32 bus' = !bus.limited →
      enumBus bus = .ok r → ∀ t, enumBus' bus' t = .ok (r.foldl m.register t))
    {r : List (Fn × Entity)} (hr : m.enumDev enumBus fuel bus dev = .ok r) (t : Tables) :
    m.decode.enumDev enumBus' bus' t dev = .ok (r.foldl m.register t) := by
  unfold enumDev at hr
  rw [← hseg, ← hid] at hr
  change (if m.venid _ = 0xFFFF then _ else if (m.header _ &&& 0x80 != 0) = true then _ else _) = _
  dsimp only at hr
  split at hr
  · cases hr
    rw [if_pos ‹_›]
    rfl
  · rw [if_neg ‹_›]
    split at hr
    · rw [if_pos (bne_iff_ne.mpr ‹_›)]
      exact visitAll_register (fun func r hr t => enumFunc_decode h hr t) hr t
    · rw [if_neg fun hmulti => ‹¬ _› (bne_iff_ne.mp hmulti)]
      exact enumFunc_decode h hr t

theorem enumBus_decode (fuel : ℕ) (bus : Bus) (bus' : Pci.Bus) (r : List (Fn × Entity))
    (hseg : bus'.seg = bus.seg) (hid : bus'.id = bus.id) (hdevs : m.decode.devs32 bus' = !bus.limited)
    (hr : m.enumBus fuel bus = .ok r) (t : Tables) :
    m.decode.enumBus fuel bus' t = .ok (r.foldl m.register t) := by
  induction fuel generalizing bus bus' r t with
  | zero => cases hr
  | succ fuel ih =>
      have hrange : (if m.decode.devs32 bus' then 32 else 1) = if bus.limited then 1 else 32 := by
        rw [hdevs]
        cases bus.limited <;> rfl
      rw [enumBus] at hr
      rw [Machine.enumBus, hrange]
      refine visitAll_register (fun dev r hr t => ?_) hr t
      exact enumDev_decode hseg hid (fun bus bus' r hseg hid hdevs hr t => ih bus bus' r hseg hid hdevs hr t)
        hr t

/-- An enumeration that returns is one of the machine that the configuration space decodes to. -/
theorem enumerate_decode {fuel : ℕ} {r : List (Fn × Entity)} (hr : m.enumerate fuel = .ok r) :
    m.decode.enumerate fuel = .ok (r.foldl m.register ⟨fun _ => none, fun _ => none⟩) := by
  rw [enumerate] at hr
  rw [Machine.enumerate]
  have hrbs : m.rbs = m.decode.rbs.zipIdx.map Prod.fst := (List.zipIdx_map_fst 0 m.rbs).symm
  rw [hrbs, visitAll_map] at hr
  exact visitAll_register (fun rb r hr t => enumBus_decode fuel (root rb.1) _ r rfl rfl rfl hr t) hr _

/-! ## Panics -/

theorem HasUnknown.of_behind {bus bus' : Bus} {f : Fn} (hf : f ∈ m.functions bus)
    (hbehind : m.Behind f bus') (h : m.HasUnknown bus') : m.HasUnknown bus := by
  obtain ⟨last, hpath, hunknown⟩ := h
  exact ⟨last, .head ⟨f, hf, hbehind⟩ hpath, hunknown⟩

/-- Where the kernel panics, there is an unknown header type. -/
theorem hasUnknown_of_panic {fuel : ℕ} {bus : Bus} (h : m.enumBus fuel bus = .error .panic) :
    m.HasUnknown bus := by
  induction fuel generalizing bus with
  | zero => cases h
  | succ fuel ih =>
      rw [enumBus_succ] at h
      obtain ⟨before, f, after, hsplit, -, hf⟩ := exists_of_visitAll_eq_error h
      have hmem : f ∈ m.functions bus := hsplit ▸ List.mem_append_right before List.mem_cons_self
      obtain hunknown | ⟨bus', hbehind, hpanic⟩ := enumFunc_eq_panic hf
      · exact ⟨bus, .refl, f, hmem, hunknown⟩
      · exact (ih hpanic).of_behind hmem hbehind

theorem enumFunc_unknown {enumBus : Bus → Except Fault (List (Fn × Entity))} {fuel : ℕ}
    (h : m.Unknown f) : m.enumFunc f enumBus fuel = .error .panic := by
  obtain ⟨hanswers, h0, h1⟩ := h
  rw [enumFunc, if_neg (not_or.mpr hanswers), if_neg h0, if_neg h1]

/-- Where the enumeration returns, there is none. -/
theorem not_hasUnknown_of_ok {fuel : ℕ} {bus : Bus} {r : List (Fn × Entity)}
    (h : m.enumBus fuel bus = .ok r) : ¬ m.HasUnknown bus := by
  rintro ⟨last, hpath, f, hf, hunknown⟩
  induction hpath using ReflTransGen.head_induction_on generalizing fuel r with
  | refl =>
      cases fuel with
      | zero => cases h
      | succ fuel =>
          rw [enumBus_succ] at h
          obtain ⟨r', hr'⟩ := visitAll_eq_ok h f hf
          rw [enumFunc_unknown hunknown] at hr'
          cases hr'
  | head hstep _ ih =>
      obtain ⟨g, hg, hbehind⟩ := hstep
      cases fuel with
      | zero => cases h
      | succ fuel =>
          rw [enumBus_succ] at h
          obtain ⟨r', hr'⟩ := visitAll_eq_ok h g hg
          cases hrun : m.enumBus fuel _ with
          | ok r'' => exact ih hrun
          | error e =>
              obtain hrun | hrun := @enumFunc_of_behind _ _ _ fuel _ hbehind _ hrun <;>
              · rw [hrun] at hr'
                cases hr'

/-- A call that returns has nothing that panics in it. -/
theorem clean_of_ok {fuel : ℕ} {r : List (Fn × Entity)}
    (h : m.enumFunc f (m.enumBus fuel) fuel = .ok r) : m.Clean f := by
  refine ⟨fun hunknown => ?_, fun bus hbehind => ?_⟩
  · rw [enumFunc_unknown hunknown] at h
    cases h
  · cases hrun : m.enumBus fuel bus with
    | ok r' => exact not_hasUnknown_of_ok hrun
    | error e =>
        obtain hrun | hrun := @enumFunc_of_behind _ _ _ fuel _ hbehind _ hrun <;>
        · rw [hrun] at h
          cases h

theorem Clean.ne_panic {fuel : ℕ} (h : m.Clean f) :
    m.enumFunc f (m.enumBus fuel) fuel ≠ .error .panic := by
  intro hpanic
  obtain hunknown | ⟨bus, hbehind, hrun⟩ := enumFunc_eq_panic hpanic
  · exact h.1 hunknown
  · exact h.2 bus hbehind (hasUnknown_of_panic hrun)

/-! ## Nested calls -/

/-- The call is not cut off with so much fuel. -/
def Finished (m : Space) (fuel : ℕ) : Call → Prop
  | .bus bus => m.enumBus fuel bus ≠ .error .fuel
  | .cap f offset => ∃ l, m.Chain f offset l ∧ l.length < fuel

theorem nesting (m : Space) : Nesting m.Finished m.Calls where
  zero n := by
    cases n with
    | bus bus => exact fun h => h rfl
    | cap f offset => exact fun ⟨_, _, h⟩ => absurd h (Nat.not_lt_zero _)
  mono fuel n h := by
    cases n with
    | bus bus =>
        change m.enumBus (fuel + 1) bus ≠ _
        rw [enumBus_extends fuel bus h]
        exact h
    | cap f offset =>
        obtain ⟨l, hl, hlt⟩ := h
        exact ⟨l, hl, Nat.lt_succ_of_lt hlt⟩
  call fuel n n' h hcalls := by
    cases hcalls with
    | next hne =>
        obtain ⟨l, hl, hlt⟩ := h
        cases hl with
        | nil => exact absurd rfl hne
        | cons _ hl => exact ⟨_, hl, Nat.lt_of_succ_lt_succ hlt⟩
    | @entity bus before after f hsplit hclean hanswers hheader =>
        by_contra hcut
        refine h ?_
        rw [enumBus_succ, hsplit]
        exact visitAll_eq_fuel (fun g hg => (hclean g hg).ne_panic) (enumFunc_of_chain hanswers hheader hcut)
    | @behind bus bus' before after f hsplit hclean hbehind =>
        intro hcut
        refine h ?_
        rw [enumBus_succ, hsplit]
        refine visitAll_eq_fuel (fun g hg => (hclean g hg).ne_panic) ?_
        exact (enumFunc_of_behind hbehind hcut).elim id id
  stuck fuel n h := by
    cases n with
    | bus bus =>
        have hrun : m.enumBus (fuel + 1) bus = .error .fuel := not_not.mp h
        rw [enumBus_succ] at hrun
        obtain ⟨before, f, after, hsplit, hbefore, hf⟩ := exists_of_visitAll_eq_error hrun
        have hclean : ∀ g ∈ before, m.Clean g := fun g hg =>
          let ⟨_, hr⟩ := hbefore g hg
          clean_of_ok hr
        obtain ⟨hanswers, hheader, hcut | ⟨bus', hbehind, hcut⟩⟩ := enumFunc_eq_fuel hf
        · exact ⟨_, .entity hsplit hclean hanswers hheader, hcut⟩
        · exact ⟨_, .behind hsplit hclean hbehind, fun hfin => hfin hcut⟩
    | cap f offset =>
        have hne : offset ≠ 0 := by
          rintro rfl
          exact h ⟨[], .nil, fuel.succ_pos⟩
        refine ⟨_, .next hne, fun ⟨l, hl, hlt⟩ => h ⟨_, .cons hne hl, Nat.succ_lt_succ hlt⟩⟩

/-! ## Finitely many calls -/

instance : Finite UInt8 :=
  Finite.of_injective (fun n : UInt8 => (⟨n.toNat, n.toNat_lt⟩ : Fin (2 ^ 8)))
    fun _ _ h => UInt8.toNat_inj.mp (Fin.mk.inj h)

instance : Finite UInt16 :=
  Finite.of_injective (fun n : UInt16 => (⟨n.toNat, n.toNat_lt⟩ : Fin (2 ^ 16)))
    fun _ _ h => UInt16.toNat_inj.mp (Fin.mk.inj h)

/-- The function and the offset are in range. -/
def Call.Valid : Call → Prop
  | .bus _ => True
  | .cap f offset => f.dev < 32 ∧ f.func < 8 ∧ offset < 256

theorem finite_valid : {n : Call | n.Valid}.Finite := by
  let bus : UInt16 × UInt8 × Bool → Call := fun b => .bus ⟨b.1, b.2.1, b.2.2⟩
  let cap : UInt16 × UInt8 × Fin 32 × Fin 8 × Fin 256 → Call :=
    fun c => .cap ⟨c.1, c.2.1, c.2.2.1, c.2.2.2.1⟩ c.2.2.2.2
  refine ((Set.finite_range bus).union (Set.finite_range cap)).subset fun n hn => ?_
  cases n with
  | bus b => exact .inl ⟨(b.seg, b.id, b.limited), rfl⟩
  | cap f offset => exact .inr ⟨(f.seg, f.bus, ⟨_, hn.1⟩, ⟨_, hn.2.1⟩, ⟨_, hn.2.2⟩), rfl⟩

theorem pointer_lt (pointer : UInt16) : (pointer &&& 0xFC).toNat < 256 := by
  have hle : pointer.toNat &&& 0xFC ≤ 0xFC := Nat.and_le_right
  rw [UInt16.toNat_and]
  exact Nat.lt_succ_of_le (hle.trans (by decide))

theorem firstCap_lt : m.firstCap f < 256 := by
  unfold firstCap
  split
  · exact pointer_lt _
  · decide

theorem mem_functions {bus : Bus} (h : f ∈ m.functions bus) : f.dev < 32 ∧ f.func < 8 := by
  obtain ⟨dev, hdev, hf⟩ := List.mem_flatMap.mp h
  have hlt : dev < 32 := by
    rw [List.mem_range] at hdev
    split at hdev <;> omega
  dsimp only at hf
  split at hf
  · cases hf
  · split at hf
    · obtain ⟨func, hfunc, rfl⟩ := List.mem_map.mp hf
      exact ⟨hlt, List.mem_range.mp hfunc⟩
    · obtain rfl := List.mem_singleton.mp hf
      exact ⟨hlt, Nat.zero_lt_succ 7⟩

theorem Calls.valid {n n' : Call} (h : m.Calls n n') (hn : n.Valid) : n'.Valid := by
  cases h with
  | next hne => exact ⟨hn.1, hn.2.1, pointer_lt _⟩
  | entity hsplit _ _ _ =>
      obtain ⟨hdev, hfunc⟩ := mem_functions (hsplit ▸ List.mem_append_right _ List.mem_cons_self)
      exact ⟨hdev, hfunc, firstCap_lt⟩
  | behind _ _ _ => exact trivial

theorem finite_reached (m : Space) :
    {n' | ∃ n, m.Starts n ∧ ReflTransGen m.Calls n n'}.Finite := by
  refine finite_valid.subset ?_
  rintro n' ⟨n, ⟨_, _, _, _, _, rfl⟩, hpath⟩
  induction hpath with
  | refl => exact trivial
  | tail _ hlast ih => exact hlast.valid ih

/-! ## The whole enumeration -/

theorem finished_of_starts {fuel : ℕ} {n : Call} (hends : m.enumerate fuel ≠ .error .fuel)
    (h : m.Starts n) : m.Finished fuel n := by
  obtain ⟨before, rb, after, hsplit, hclean, rfl⟩ := h
  intro hcut
  refine hends ?_
  rw [enumerate, hsplit]
  exact visitAll_eq_fuel (fun r hr hpanic => hclean r hr (hasUnknown_of_panic hpanic)) hcut

theorem exists_starts {fuel : ℕ} (hcut : m.enumerate fuel = .error .fuel) :
    ∃ n, m.Starts n ∧ ¬ m.Finished fuel n := by
  obtain ⟨before, rb, after, hsplit, hbefore, hrb⟩ := exists_of_visitAll_eq_error hcut
  refine ⟨_, ⟨before, rb, after, hsplit, fun r hr => ?_, rfl⟩, fun hfin => hfin hrb⟩
  obtain ⟨_, hrun⟩ := hbefore r hr
  exact not_hasUnknown_of_ok hrun

theorem ends_iff (m : Space) : m.Ends ↔ m.Acyclic :=
  m.nesting.client_finishes_iff (fun _ _ hends hn => finished_of_starts hends hn)
    (fun _ hcut => exists_starts (not_not.mp hcut)) m.finite_reached

/-- One call that is made again inside itself is enough. -/
theorem not_ends_of_cycle {n n' : Call} (hn : m.Starts n) (hpath : ReflTransGen m.Calls n n')
    (hcycle : TransGen m.Calls n' n') : ¬ m.Ends := by
  rintro ⟨fuel, hends⟩
  have hfinite : {n' | ReflTransGen m.Calls n n'}.Finite :=
    m.finite_reached.subset fun _ hreached => ⟨n, hn, hreached⟩
  exact (m.nesting.finishes_iff hfinite).mp ⟨fuel, finished_of_starts hends hn⟩ n' hpath hcycle

theorem starts_root (h : m.rbs = [(0, 0)]) : m.Starts (.bus ⟨0, 0, false⟩) :=
  ⟨[], (0, 0), [], h, List.forall_mem_nil _, rfl⟩

/-- One device, whose only capability points to itself. -/
def selfPointing : Space where
  rbs := [(0, 0)]
  byte f offset :=
    if f ≠ ⟨0, 0, 0, 0⟩ then 0xFF
    else if offset = 0x06 then 0x10
    else if offset = 0x34 ∨ offset = 0x41 then 0x40
    else 0
  junk _ := (false, false)

/-- A bridge on each bus, behind all of which there is bus 1. -/
def selfContaining : Space where
  rbs := [(0, 0)]
  byte f offset := if f.dev = 0 ∧ f.func = 0 then if offset = 0x0E ∨ offset = 0x19 then 1 else 0 else 0xFF
  junk _ := (false, false)

theorem not_ends : ¬ selfPointing.Ends ∧ ¬ selfContaining.Ends := by
  constructor
  · have hfunctions : selfPointing.functions ⟨0, 0, false⟩ = [] ++ ⟨0, 0, 0, 0⟩ :: [] := by decide +kernel
    have hcaps : selfPointing.Calls (.bus ⟨0, 0, false⟩) (.cap ⟨0, 0, 0, 0⟩ 0x40) :=
      .entity hfunctions (List.forall_mem_nil _) (by decide) (.inl (by decide))
    have hnext : selfPointing.Calls (.cap ⟨0, 0, 0, 0⟩ 0x40) (.cap ⟨0, 0, 0, 0⟩ 0x40) :=
      .next (by decide)
    exact not_ends_of_cycle (starts_root rfl) (.single hcaps) (.single hnext)
  · have hcalls : ∀ id, id = 0 ∨ id = 1 →
        selfContaining.Calls (.bus ⟨0, id, false⟩) (.bus ⟨0, 1, false⟩) := by
      intro id hid
      have hfunctions : selfContaining.functions ⟨0, id, false⟩ = [] ++ ⟨0, id, 0, 0⟩ :: [] := by
        obtain rfl | rfl := hid <;> decide +kernel
      obtain ⟨hanswers, hheader, hsecondary, hcap⟩ : selfContaining.Answers ⟨0, id, 0, 0⟩ ∧
          selfContaining.headerType ⟨0, id, 0, 0⟩ = 1 ∧ selfContaining.secondaryBus ⟨0, id, 0, 0⟩ ≠ 0 ∧
          selfContaining.firstCap ⟨0, id, 0, 0⟩ = 0 := by
        obtain rfl | rfl := hid <;> decide
      have hchain : selfContaining.Chain ⟨0, id, 0, 0⟩ (selfContaining.firstCap ⟨0, id, 0, 0⟩) [] := by
        rw [hcap]
        exact .nil
      exact .behind hfunctions (List.forall_mem_nil _) ⟨hanswers, hheader, hsecondary, [], hchain, rfl⟩
    exact not_ends_of_cycle (starts_root rfl) (.single (hcalls 0 (.inl rfl))) (.single (hcalls 1 (.inr rfl)))

end Space

end Ilobilix.Pci
