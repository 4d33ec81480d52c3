import Mathlib.Algebra.Group.Int.Defs
import Mathlib.Algebra.GroupWithZero.Nat
import Mathlib.Data.Int.Notation
import Mathlib.Data.List.Basic

/-!
# Legacy interrupt routing: `pci::router`

The router of a bus with a routing table looks an interrupt pin up in it. A bus without one is taken
for an expansion board: its router asks the one above for the four pins of the bridge, once and for
all, and picks one of the four by the pin and the device number. So the device numbers of the
bridges on the way add up (`Below.bridgeIrq_eq`), except for that of the outermost one, which is
looked up.

What the routers ask of uACPI is in `Uacpi`: the routing table of a node of the namespace, the
device nodes below a node in the order in which they are visited, their addresses, and the resources
of a link.
-/

namespace Ilobilix.Pci.Routing

variable {Node : Type}

/-! ## The model -/

/-- An entry as uACPI gives it, with a pin from 0 on. -/
structure Route (Node : Type) where
  address : ℕ
  index : ℕ
  source : Option Node
  pin : ℕ

/-- The result of `uacpi_get_pci_routing_table`. -/
inductive Prt (Node : Type)
  | ok (routes : List (Route Node))
  | notFound
  | failed

/-- The result of evaluating `_ADR`. -/
inductive Adr
  | ok (addr : ℕ)
  | notFound
  | failed

/-- The first of the current resources of a link. -/
inductive Link
  | irq (irqs : List ℕ) (edge high : Bool)
  | other
  | failed

structure Uacpi (Node : Type) where
  prt : Node → Prt Node
  devices : Node → List Node
  adr : Node → Adr
  link : Node → Link

/-- `router::entry`. -/
structure Entry where
  gsi : ℕ
  dev : ℤ
  func : ℤ
  pin : ℕ
  flags : ℕ
deriving DecidableEq, Repr

/-- `router::model`. -/
inductive Model
  | none
  | root
  | expansion
deriving DecidableEq, Repr

structure Router (Node : Type) where
  node : Option Node
  table : List Entry
  bridgeIrq : Fin 4 → Option Entry
  mod : Model

/-- What is in the members of a new router that its constructor does not assign. -/
structure Junk where
  bridgeIrq : Fin 4 → Option Entry
  mod : Model

/-- A PCI-to-PCI bridge by its device and function. -/
structure Bridge where
  dev : ℕ
  func : ℕ

namespace Router

/-- `find_if` on the table, or one of the routes of the bridge. -/
def resolve (r : Router Node) (dev : ℤ) (pin : ℕ) (func : ℤ) : Option Entry :=
  match r.mod with
  | .root => r.table.find? fun entry =>
      let ret := decide (entry.dev = dev) && decide (entry.pin = pin)
      if func ≠ -1 then ret && (decide (entry.func = -1) || decide (entry.func = func)) else ret
  | .expansion => r.bridgeIrq ⟨(((pin : ℤ) - 1 + dev) % 2 ^ 64).toNat % 4, Nat.mod_lt _ (by decide)⟩
  | .none => none

end Router

namespace Uacpi

variable (u : Uacpi Node)

/-- The entry of a route. A link without an interrupt makes the kernel panic. -/
def entry (route : Route Node) : Option Entry :=
  let slot : ℤ := (route.address >>> 16 &&& 0xFFFF : ℕ)
  let func : ℤ := (route.address &&& 0xFFFF : ℕ)
  let func := if func = 0xFFFF then -1 else func
  match route.source with
  | none => some ⟨route.index, slot, func, (route.pin + 1) % 2 ^ 8, 2 ||| 8⟩
  | some source =>
      match u.link source with
      | .irq (gsi :: _) edge high =>
          some ⟨gsi, slot, func, (route.pin + 1) % 2 ^ 8, (if edge then 1 else 2) ||| if high then 4 else 8⟩
      | _ => none

/-- The router of an expansion board. -/
def expansion (parent : Option (Router Node)) (bridge : Option Bridge) (node : Option Node) :
    Option (Router Node) := do
  let parent ← parent
  let bridge ← bridge
  some { node, table := [], bridgeIrq := fun i => parent.resolve bridge.dev (i + 1) (-1), mod := .expansion }

/-- The constructor of `acpi::router`, for a bus behind a bridge or a root bus. Without a result, the
kernel panics. -/
def router (junk : Junk) (parent : Option (Router Node)) (bridge : Option Bridge) (node : Option Node) :
    Option (Router Node) :=
  match node with
  | none => expansion parent bridge none
  | some n =>
      match u.prt n with
      | .notFound =>
          if parent.isSome then expansion parent bridge (some n)
          else some { node := some n, table := [], bridgeIrq := junk.bridgeIrq, mod := junk.mod }
      | .failed => some { node := some n, table := [], bridgeIrq := junk.bridgeIrq, mod := junk.mod }
      | .ok routes => do
          let table ← routes.mapM u.entry
          some { node := some n, table, bridgeIrq := junk.bridgeIrq, mod := .root }

/-- The callback that looks for the node of a bridge. A device without an address counts as 0. -/
def isAt (addr : ℕ) (node : Node) : Bool :=
  match u.adr node with
  | .ok a => a == addr
  | .notFound => addr == 0
  | .failed => false

/-- The first device with the address of the bridge, at any depth below the node of the bus. -/
def devHandle (node : Option Node) (bridge : Bridge) : Option Node :=
  node.bind fun n => (u.devices n).find? (u.isAt (bridge.dev <<< 16 ||| bridge.func))

/-- `downstream`, for the bus behind a bridge. -/
def downstream (junk : Junk) (me : Router Node) (bridge : Bridge) : Option (Router Node) :=
  u.router junk (some me) (some bridge) (u.devHandle me.node bridge)

/-- There is no routing table for the bus behind the bridge. -/
def NoTable (me : Router Node) (bridge : Bridge) : Prop :=
  ∀ n, u.devHandle me.node bridge = some n → u.prt n = .notFound

/-- The router is that of a bus below, behind these bridges from the outermost on, and none of the
buses has a routing table. -/
inductive Below (base : Router Node) : List Bridge → Router Node → Prop
  | here : Below base [] base
  | next {path : List Bridge} {me r : Router Node} {bridge : Bridge} {junk : Junk}
      (h : Below base path me) (hnone : u.NoTable me bridge)
      (hdown : u.downstream junk me bridge = some r) :
      Below base (path ++ [bridge]) r

end Uacpi

/-! ## Expansion boards -/

variable {u : Uacpi Node}

/-- The four routes of a bus without a routing table. -/
theorem Uacpi.NoTable.expansion {junk : Junk} {me r : Router Node} {bridge : Bridge}
    (h : u.NoTable me bridge) (hdown : u.downstream junk me bridge = some r) :
    r.mod = .expansion ∧ ∀ i, r.bridgeIrq i = me.resolve bridge.dev (i + 1) (-1) := by
  have hexpansion : ∀ node, Uacpi.expansion (some me) (some bridge) node = some r →
      r.mod = .expansion ∧ ∀ i, r.bridgeIrq i = me.resolve bridge.dev (i + 1) (-1) := by
    rintro node ⟨⟩
    exact ⟨rfl, fun _ => rfl⟩
  unfold Uacpi.downstream Uacpi.router at hdown
  cases hnode : u.devHandle me.node bridge with
  | none =>
      rw [hnode] at hdown
      exact hexpansion _ hdown
  | some n =>
      rw [hnode] at hdown
      dsimp only at hdown
      rw [h n hnode] at hdown
      exact hexpansion _ hdown

theorem Router.resolve_root {r : Router Node} (hmod : r.mod = .root) (dev : ℤ) (pin : ℕ) :
    r.resolve dev pin (-1) =
      r.table.find? fun entry => decide (entry.dev = dev) && decide (entry.pin = pin) := by
  rw [resolve, hmod]
  simp

/-- The pins of a bus without a routing table are rotated by the device number. -/
theorem Router.resolve_expansion {r : Router Node} (hmod : r.mod = .expansion) {dev pin : ℕ} (hpin : 1 ≤ pin) :
    r.resolve dev pin (-1) = r.bridgeIrq ⟨(pin - 1 + dev) % 4, Nat.mod_lt _ (by decide)⟩ := by
  have hindex : (((pin : ℤ) - 1 + dev) % 2 ^ 64).toNat % 4 = (pin - 1 + dev) % 4 := by omega
  rw [resolve, hmod]
  dsimp only
  congr 1
  exact Fin.ext hindex

theorem Uacpi.Below.eq_base {base r : Router Node} {path : List Bridge} (h : u.Below base path r)
    (hpath : path = []) : r = base := by
  cases h with
  | here => rfl
  | next _ _ _ => exact absurd hpath (List.append_ne_nil_of_right_ne_nil _ (List.cons_ne_nil _ _))

/-- The routes of a bus below are those of the outermost bridge, rotated by the device numbers of the
others. -/
theorem Uacpi.Below.bridgeIrq_eq {base r : Router Node} {path : List Bridge} (h : u.Below base path r)
    {outer : Bridge} {inner : List Bridge} (hpath : path = outer :: inner) :
    r.mod = .expansion ∧ ∀ i, r.bridgeIrq i =
      base.resolve outer.dev ((i + (inner.map Bridge.dev).sum) % 4 + 1) (-1) := by
  induction h generalizing inner with
  | here => cases hpath
  | @next path me r bridge junk hbelow hnone hdown ih =>
      obtain ⟨hmod, hirq⟩ := hnone.expansion hdown
      refine ⟨hmod, fun i => ?_⟩
      rw [hirq i]
      cases path with
      | nil =>
          cases hpath
          have hi : (i.val + 0) % 4 = i.val := Nat.mod_eq_of_lt i.isLt
          rw [hbelow.eq_base rfl, List.map_nil, List.sum_nil, hi]
      | cons first rest =>
          cases hpath
          obtain ⟨hme, hmeirq⟩ := ih rfl
          have hrotate : ((i + 1 - 1 + bridge.dev) % 4 + (rest.map Bridge.dev).sum) % 4 =
              (i + ((rest ++ [bridge]).map Bridge.dev).sum) % 4 := by
            simp only [List.map_append, List.map_cons, List.map_nil, List.sum_append, List.sum_cons,
              List.sum_nil]
            omega
          rw [Router.resolve_expansion hme (Nat.le_add_left 1 i), hmeirq]
          dsimp only
          rw [hrotate]
          rfl

/-- The interrupt of a device on a bus below is in the table of the base, under the device number of
the outermost bridge. -/
theorem resolve_innermost {junk : Junk} {parent : Option (Router Node)} {bridge : Option Bridge} {node : Node}
    {routes : List (Route Node)} {base : Router Node} (hprt : u.prt node = .ok routes)
    (hbase : u.router junk parent bridge (some node) = some base) {outer : Bridge} {inner : List Bridge}
    {r : Router Node} (hbelow : u.Below base (outer :: inner) r) (dev : ℕ) {pin : ℕ}
    (hpin : 1 ≤ pin ∧ pin ≤ 4) :
    routes.mapM u.entry = some base.table ∧
      r.resolve dev pin (-1) = base.table.find? fun entry => decide (entry.dev = (outer.dev : ℤ)) &&
        decide (entry.pin = (pin - 1 + dev + (inner.map Bridge.dev).sum) % 4 + 1) := by
  obtain ⟨htable, hroot⟩ : routes.mapM u.entry = some base.table ∧ base.mod = .root := by
    unfold Uacpi.router at hbase
    dsimp only at hbase
    rw [hprt] at hbase
    obtain ⟨table, htable, heq⟩ := Option.bind_eq_some_iff.mp hbase
    cases heq
    exact ⟨htable, rfl⟩
  obtain ⟨hmod, hirq⟩ := hbelow.bridgeIrq_eq rfl
  have hrotate : ((pin - 1 + dev) % 4 + (inner.map Bridge.dev).sum) % 4 =
      (pin - 1 + dev + (inner.map Bridge.dev).sum) % 4 := Nat.mod_add_mod _ _ _
  refine ⟨htable, ?_⟩
  rw [Router.resolve_expansion hmod hpin.1, hirq]
  dsimp only
  rw [hrotate, Router.resolve_root hroot]

/-- A root bus with a table for the four pins of device 1, and a node without a table for the bus
behind that device. -/
def nested : Uacpi ℕ where
  prt n := if n = 0 then .ok ((List.range 4).map fun pin => ⟨0x1FFFF, 16 + pin, none, pin⟩) else .notFound
  devices n := if n = 0 then [1] else []
  adr n := if n = 1 then .ok 0x10000 else .notFound
  link _ := .failed

def unset : Junk := ⟨fun _ => none, .none⟩

/-- The router of the root bus. -/
def nestedBase : Router ℕ where
  node := some 0
  table := (List.range 4).map fun pin => ⟨16 + pin, 1, -1, pin + 1, 2 ||| 8⟩
  bridgeIrq _ := none
  mod := .root

/-- Pin 2 of device 3 behind device 6 of the bus behind device 1 has the interrupt of pin 3 of
device 1. -/
theorem resolve_nested : ∃ r, nested.Below nestedBase [⟨1, 0⟩, ⟨6, 0⟩] r ∧
    r.resolve (3 : ℕ) 2 (-1) = nestedBase.table.find? fun entry => decide (entry.dev = ((1 : ℕ) : ℤ)) &&
      decide (entry.pin = (2 - 1 + 3 + ([(⟨6, 0⟩ : Bridge)].map Bridge.dev).sum) % 4 + 1) := by
  have hbase : nested.router unset none none (some 0) = some nestedBase := rfl
  obtain ⟨r, hbelow⟩ : ∃ r, nested.Below nestedBase [⟨1, 0⟩, ⟨6, 0⟩] r :=
    ⟨_, @Uacpi.Below.next ℕ nested nestedBase _ _ _ _ unset
      (@Uacpi.Below.next ℕ nested nestedBase _ _ _ _ unset .here (by rintro n ⟨⟩; rfl) rfl)
      (by rintro n ⟨⟩) rfl⟩
  exact ⟨r, hbelow, (resolve_innermost rfl hbase hbelow 3 (by decide)).2⟩

end Ilobilix.Pci.Routing
