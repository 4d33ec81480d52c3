import Ilobilix.Foundation.RedBlack
import Mathlib.Logic.Function.Basic

/-!
# `lib/rbtree.cppm`

The intrusive red-black tree, on the hooks in the elements. A null pointer is `none`, and its hook is
the `nh` on the stack of an operation, so that one function from pointers to hooks is the memory that
an operation works on. Functions that come in a left and a right form in the source are one function
of the side here; `rotate .left` is `rotate_left`.

`bug_on` stops a function with an error. The loops follow the links of the tree, so they take fuel;
`Stop.fuel` is the error of a run that was cut off.
-/

namespace Ilobilix.Lib.Rbtree

open RedBlack

universe u

variable {α : Type u} [DecidableEq α]

/-- `rbtree_hook`. -/
structure Hook (α : Type u) where
  parent : Option α
  left : Option α
  right : Option α
  successor : Option α
  predecessor : Option α
  colour : Colour

/-- A hook as constructed. -/
def Hook.new : Hook α := ⟨none, none, none, none, none, .black⟩

structure State (α : Type u) where
  hooks : Option α → Hook α
  root : Option α
  head : Option α
  size : ℕ

inductive Stop
  | bug
  | fuel
deriving DecidableEq, Repr

/-- `bug_on`. -/
def bugOn (p : Prop) [Decidable p] : Except Stop PUnit.{u + 1} := if p then .error .bug else .ok .unit

namespace State

def parent (s : State α) (item : Option α) : Option α := (s.hooks item).parent

/-- `left` and `right`. -/
def child (s : State α) (side : Side) (item : Option α) : Option α :=
  match side with
  | .left => (s.hooks item).left
  | .right => (s.hooks item).right

/-- `predecessor` and `successor`. -/
def next (s : State α) (side : Side) (item : Option α) : Option α :=
  match side with
  | .left => (s.hooks item).predecessor
  | .right => (s.hooks item).successor

def colourOf (s : State α) (item : Option α) : Colour := (s.hooks item).colour

def setHook (s : State α) (item : Option α) (hook : Hook α) : State α :=
  { s with hooks := Function.update s.hooks item hook }

def setParent (s : State α) (item v : Option α) : State α :=
  s.setHook item { s.hooks item with parent := v }

def setChild (s : State α) (side : Side) (item v : Option α) : State α :=
  s.setHook item (match side with
    | .left => { s.hooks item with left := v }
    | .right => { s.hooks item with right := v })

def setNext (s : State α) (side : Side) (item v : Option α) : State α :=
  s.setHook item (match side with
    | .left => { s.hooks item with predecessor := v }
    | .right => { s.hooks item with successor := v })

def setColour (s : State α) (item : Option α) (c : Colour) : State α :=
  s.setHook item { s.hooks item with colour := c }

/-- `v` takes the place of `u` below the parent of `u`, or at the root. -/
def replace (side : Side) (u v : Option α) (s : State α) : State α :=
  if s.parent u = none then { s with root := v }
  else if u = s.child side (s.parent u) then s.setChild side (s.parent u) v
  else s.setChild side.other (s.parent u) v

/-- `rotate_left` and `rotate_right`. -/
def rotate (side : Side) (x : Option α) (s : State α) : Except Stop (State α) := do
  bugOn (s.child side.other x = none ∨ s.parent s.root ≠ none)
  let y := s.child side.other x
  let s := s.setChild side.other x (s.child side y)
  let s := if s.child side.other x ≠ none then s.setParent (s.child side y) x else s
  let s := s.setParent y (s.parent x)
  let s := s.replace side x y
  let s := s.setChild side y x
  return s.setParent x y

/-! ## Insertion -/

/-- The body of the loop of `insert_fixup`. -/
def insertTurn (z : Option α) (s : State α) : Except Stop (State α × Option α) := do
  let side := if s.parent z = s.child .left (s.parent (s.parent z)) then Side.left else .right
  let y := s.child side.other (s.parent (s.parent z))
  if s.colourOf y = .red then
    let s := s.setColour (s.parent z) .black
    let s := s.setColour y .black
    let s := s.setColour (s.parent (s.parent z)) .red
    return (s, s.parent (s.parent z))
  else
    let (s, z) ←
      if z = s.child side.other (s.parent z) then do
        let z := s.parent z
        let s ← s.rotate side z
        pure (s, z)
      else pure (s, z)
    let s := s.setColour (s.parent z) .black
    let s := s.setColour (s.parent (s.parent z)) .red
    let s ← s.rotate side.other (s.parent (s.parent z))
    return (s, z)

def insertFixup : ℕ → Option α → State α → Except Stop (State α)
  | 0, _, _ => .error .fuel
  | fuel + 1, z, s =>
      if s.colourOf (s.parent z) = .red then do
        let (s, z) ← insertTurn z s
        insertFixup fuel z s
      else .ok (s.setColour s.root .black)

/-- The first loop of `_insert`. It returns `y`. -/
def descend (less : α → α → Bool) (z : α) (s : State α) :
    ℕ → Option α → Option α → Except Stop (Option α)
  | 0, _, _ => .error .fuel
  | _ + 1, none, y => .ok y
  | fuel + 1, some x, _ =>
      descend less z s fuel (s.child (if less z x then .left else .right) (some x)) (some x)

/-- `z` becomes the child of `y` on `side`, and its neighbour there. -/
def link (side : Side) (z y : Option α) (s : State α) : State α :=
  let s := s.setChild side y z
  let s := s.setNext side.other z y
  let beyond := s.next side y
  let s := s.setNext side z beyond
  let s := if beyond ≠ none then s.setNext side.other beyond z else s
  s.setNext side y z

/-- `_insert`. -/
def insertBelow (less : α → α → Bool) (fuel : ℕ) (z : α) (s : State α) :
    Except Stop (State α) := do
  let y ← descend less z s fuel s.root none
  let s := s.setParent (some z) y
  let s :=
    match y with
    | none => { s with root := some z }
    | some y' => s.link (if less z y' then .left else .right) (some z) y
  let s := s.setChild .left (some z) none
  let s := s.setChild .right (some z) none
  let s := s.setColour (some z) .red
  let s :=
    match s.head with
    | none => { s with head := some z }
    | some head => if less z head then { s with head := some z } else s
  insertFixup fuel (some z) s

def insert (less : α → α → Bool) (fuel : ℕ) (z : α) (s : State α) : Except Stop (State α) := do
  let s := s.setHook none .new
  let s := s.setHook (some z) .new
  let s ←
    if s.root = none then pure { s with root := some z, head := some z }
    else s.insertBelow less fuel z
  return { s with size := s.size + 1 }

/-! ## Removal -/

def transplant (u v : Option α) (s : State α) : State α :=
  let s := s.replace .left u v
  s.setParent v (s.parent u)

/-- The loop of `minimum` and of `maximum`. -/
def extreme (side : Side) (s : State α) : ℕ → Option α → Except Stop (Option α)
  | 0, _ => .error .fuel
  | fuel + 1, x => if s.child side x ≠ none then extreme side s fuel (s.child side x) else .ok x

/-- `minimum` and `maximum`. -/
def outermost (side : Side) (s : State α) (fuel : ℕ) (x : Option α) : Except Stop (Option α) := do
  bugOn (x = none)
  extreme side s fuel x

/-- The body of the loop of `_remove_fixup` from where the sibling `w` of `x` is black. -/
def removeBlack (side : Side) (x w : Option α) (s : State α) :
    Except Stop (State α × Option α) := do
  if s.colourOf (s.child side w) = .black ∧ s.colourOf (s.child side.other w) = .black then
    let s := s.setColour w .red
    return (s, s.parent x)
  else
    let (s, w) ←
      if s.colourOf (s.child side.other w) = .black then do
        let s := s.setColour (s.child side w) .black
        let s := s.setColour w .red
        let s ← s.rotate side.other w
        pure (s, s.child side.other (s.parent x))
      else pure (s, w)
    let s := s.setColour w (s.colourOf (s.parent x))
    let s := s.setColour (s.parent x) .black
    let s := s.setColour (s.child side.other w) .black
    let s ← s.rotate side (s.parent x)
    return (s, s.root)

/-- The body of the loop of `_remove_fixup`. -/
def removeTurn (x : Option α) (s : State α) : Except Stop (State α × Option α) := do
  let side := if x = s.child .left (s.parent x) then Side.left else .right
  let w := s.child side.other (s.parent x)
  if s.colourOf w = .red then
    let s := s.setColour w .black
    let s := s.setColour (s.parent x) .red
    let s ← s.rotate side (s.parent x)
    s.removeBlack side x (s.child side.other (s.parent x))
  else s.removeBlack side x w

def removeFixup : ℕ → Option α → State α → Except Stop (State α)
  | 0, _, _ => .error .fuel
  | fuel + 1, x, s =>
      if x ≠ s.root ∧ s.colourOf x = .black then do
        let (s, x) ← removeTurn x s
        removeFixup fuel x s
      else .ok (s.setColour x .black)

/-- The part of `_remove` that takes `z` out of the list. -/
def unlink (z : Option α) (s : State α) : Except Stop (State α) := do
  let pred := s.next .left z
  let succ := s.next .right z
  bugOn (pred ≠ none ∧ s.next .right pred ≠ z)
  bugOn (succ ≠ none ∧ s.next .left succ ≠ z)
  let s := if pred ≠ none then s.setNext .right pred succ else { s with head := succ }
  let s := if succ ≠ none then s.setNext .left succ pred else s
  let s := if s.head = z then { s with head := if succ ≠ none then succ else pred } else s
  let s := s.setNext .left z none
  return s.setNext .right z none

/-- The part of `_remove` that takes `z` out of the tree. It returns `x` and the colour that has gone
from its place. -/
def detach (fuel : ℕ) (z : Option α) (s : State α) :
    Except Stop (State α × Option α × Colour) := do
  if s.child .left z = none then
    let x := s.child .right z
    return (s.transplant z x, x, s.colourOf z)
  else if s.child .right z = none then
    let x := s.child .left z
    return (s.transplant z x, x, s.colourOf z)
  else
    let y ← s.outermost .left fuel (s.child .right z)
    let yoc := s.colourOf y
    let x := s.child .right y
    let s :=
      if y ≠ s.child .right z then
        let s := s.transplant y (s.child .right y)
        let s := s.setChild .right y (s.child .right z)
        s.setParent (s.child .right y) y
      else s.setParent x y
    let s := s.transplant z y
    let s := s.setChild .left y (s.child .left z)
    let s := s.setParent (s.child .left y) y
    return (s.setColour y (s.colourOf z), x, yoc)

/-- `_remove` up to the check at its end. -/
def removeUnchecked (fuel : ℕ) (z : Option α) (s : State α) : Except Stop (State α) := do
  bugOn (z = none)
  let s ← s.unlink z
  let (s, x, yoc) ← s.detach fuel z
  if yoc = .black then removeFixup fuel x s else return s

/-- The end of `_remove`. -/
def headCheck (s : State α) : Except Stop (State α) := do
  if s.root = none then return { s with head := none }
  else
    bugOn (s.head = none ∨ s.next .left s.head ≠ none)
    return s

/-- `_remove`. -/
def removeNode (fuel : ℕ) (z : Option α) (s : State α) : Except Stop (State α) := do
  let s ← s.removeUnchecked fuel z
  s.headCheck

def remove (fuel : ℕ) (x : α) (s : State α) : Except Stop (State α) := do
  let s := s.setHook none .new
  let s ← s.removeNode fuel (some x)
  bugOn (s.size = 0)
  return { s with size := s.size - 1 }

/-! ## Reading -/

/-- `operator++` and `operator--` of an iterator, with its own hook for the null pointer. -/
def advance (side : Side) (current : Option α) (s : State α) : Option α :=
  (s.setHook none .new).next side current

/-- The iterator `begin` is at this element; `end` is at none. -/
def begin (s : State α) : Option α := s.head

def first (s : State α) : Option α := s.head

def last (fuel : ℕ) (s : State α) : Except Stop (Option α) :=
  if s.root = none then .ok none else (s.setHook none .new).outermost .right fuel s.root

/-- A tree without elements. -/
def empty (hooks : Option α → Hook α) : State α := ⟨hooks, none, none, 0⟩

end State

end Ilobilix.Lib.Rbtree
