import Ilobilix.Foundation.LinkedList
import Ilobilix.Foundation.Transition
import Mathlib.Data.List.Nodup
import Mathlib.Data.List.Perm.Subperm
import Mathlib.Logic.Function.Basic

/-!
# `std::list` of the kernel

A list is two pointers into the heap: to its first node and to the node after the last element. A new
list has neither, and a list that was emptied has the last one only. The first insertion into a list
without nodes makes both nodes, and then the position that it was called with, a null pointer, is not a
position of the list any more. An insertion of several elements goes on with it.

`Holds` says that the nodes of a list spell out a sequence. Every operation keeps it for the operation
on sequences, but for two: an insertion of more than one element into a list without nodes dereferences
the null pointer, and the assignment of a list to itself empties it. `list_refines` is the result for
all runs, over any number of lists.
-/

namespace Ilobilix.StdList

/-! ## The model -/

/-- `list::node`. The node after the last element has no data. -/
structure Node (α : Type) where
  data : Option α
  next : Option ℕ
  prev : Option ℕ

/-- The allocated nodes. All of them are below `bound`. -/
structure Heap (α : Type) where
  cell : ℕ → Option (Node α)
  bound : ℕ

namespace Heap

variable {α : Type}

/-- The address that `alloc_node` returns is `bound`. -/
def alloc (h : Heap α) : Heap α :=
  ⟨Function.update h.cell h.bound (some ⟨none, none, none⟩), h.bound + 1⟩

/-- The node behind a pointer. There is none behind a null pointer or a pointer to a freed node. -/
def get (h : Heap α) (p : Option ℕ) : Option (Node α) := p.bind h.cell

def modify (p : Option ℕ) (f : Node α → Node α) (h : Heap α) : Option (Heap α) := do
  let a ← p
  let n ← h.cell a
  some { h with cell := Function.update h.cell a (some (f n)) }

def deallocNode (p : Option ℕ) (h : Heap α) : Option (Heap α) := do
  let a ← p
  let _ ← h.cell a
  some { h with cell := Function.update h.cell a none }

/-- An iterator that is advanced. -/
def advance (h : Heap α) : ℕ → Option ℕ → Option (Option ℕ)
  | 0, p => some p
  | k + 1, p => do advance h k (← h.get p).next

/-- The loop of `erase_internal`. Every turn frees a node, so there are no more turns than nodes. -/
def deallocUntil (last : Option ℕ) : ℕ → Option ℕ → Heap α → Option (Heap α)
  | 0, p, h => if p = last then some h else none
  | turns + 1, p, h =>
      if p = last then some h
      else do
        let next := (← h.get p).next
        deallocUntil last turns next (← h.deallocNode p)

/-- The elements from an iterator to another one. A walk that is longer than the heap does not end. -/
def visit (h : Heap α) (last : Option ℕ) : ℕ → Option ℕ → Option (List α)
  | 0, p => if p = last then some [] else none
  | turns + 1, p =>
      if p = last then some []
      else do
        let n ← h.get p
        let value ← n.data
        some (value :: (← visit h last turns n.next))

/-- The same backwards. -/
def visitBack (h : Heap α) (first : Option ℕ) : ℕ → Option ℕ → Option (List α)
  | 0, p => if p = first then some [] else none
  | turns + 1, p =>
      if p = first then some []
      else do
        let prev := (← h.get p).prev
        let value ← (← h.get prev).data
        some (value :: (← visitBack h first turns prev))

end Heap

/-- A list, with the heap that its nodes are in. -/
structure Object (α : Type) where
  heap : Heap α
  beginNode : Option ℕ
  endNode : Option ℕ

namespace Object

variable {α : Type}

/-- The part of `create_before` that links the new node `current`. -/
def link (pos current : Option ℕ) (x : Object α) : Option (Object α) :=
  if x.beginNode = none then do
    let endNode := some x.heap.bound
    let h ← x.heap.alloc.modify current fun n => { n with next := endNode }
    let h ← h.modify endNode fun n => { n with prev := current }
    some ⟨h, current, endNode⟩
  else if pos = x.beginNode then do
    let h ← x.heap.modify current fun n => { n with next := pos }
    let h ← h.modify pos fun n => { n with prev := current }
    some ⟨h, current, x.endNode⟩
  else do
    let prev := (← x.heap.get pos).prev
    let h ← x.heap.modify prev fun n => { n with next := current }
    let h ← h.modify current fun n => { n with prev := prev }
    let h ← h.modify current fun n => { n with next := pos }
    let h ← h.modify pos fun n => { n with prev := current }
    some { x with heap := h }

def createBefore (pos : Option ℕ) (value : α) (x : Object α) : Option (Object α × Option ℕ) := do
  let current := some x.heap.bound
  let x ← link pos current { x with heap := x.heap.alloc }
  let h ← x.heap.modify current fun n => { n with data := some value }
  some ({ x with heap := h }, current)

def eraseInternal (first last : Option ℕ) (x : Object α) : Option (Object α) :=
  if first = last then some x
  else do
    let prev := (← x.heap.get first).prev
    let y ← if first = x.beginNode then some { x with beginNode := last }
      else do some { x with heap := ← x.heap.modify prev fun n => { n with next := last } }
    let h ← y.heap.modify last fun n => { n with prev := prev }
    some { y with heap := ← h.deallocUntil last h.bound first }

def front (x : Object α) : Option α := do (← x.heap.get x.beginNode).data

def back (x : Object α) : Option α := do (← x.heap.get (← x.heap.get x.endNode).prev).data

def empty (x : Object α) : Bool := x.beginNode = x.endNode

/-- The elements from `begin()` to `end()`. -/
def elements (x : Object α) : Option (List α) := x.heap.visit x.endNode x.heap.bound x.beginNode

/-- The elements from `end()` back to `begin()`. -/
def elementsBack (x : Object α) : Option (List α) :=
  x.heap.visitBack x.beginNode x.heap.bound x.endNode

def size (x : Object α) : Option ℕ := x.elements.map List.length

/-- The insertions of a loop over `create_before`. -/
def createAll (pos : Option ℕ) : List α → Object α → Option (Object α)
  | [], x => some x
  | value :: values, x => do createAll pos values (← createBefore pos value x).1

/-- `insert` of a range or of an initializer list, which returns the first element inserted. -/
def insertRange (pos : Option ℕ) (values : List α) (x : Object α) : Option (Object α × Option ℕ) :=
  match values with
  | [] => some (x, pos)
  | value :: values => do
      let (x, first) ← createBefore pos value x
      some (← createAll pos values x, first)

def insertCount (pos : Option ℕ) (count : ℕ) (value : α) (x : Object α) :
    Option (Object α × Option ℕ) :=
  if count = 0 then some (x, pos)
  else do
    let (x, first) ← createBefore pos value x
    some (← createAll pos (List.replicate (count - 1) value) x, first)

def insert (pos : Option ℕ) (value : α) (x : Object α) : Option (Object α × Option ℕ) :=
  createBefore pos value x

def erase (pos : Option ℕ) (x : Object α) : Option (Object α) := do
  eraseInternal pos (← x.heap.get pos).next x

def clear (x : Object α) : Option (Object α) := eraseInternal x.beginNode x.endNode x

def pushBack (value : α) (x : Object α) : Option (Object α) := (insert x.endNode value x).map Prod.fst

def pushFront (value : α) (x : Object α) : Option (Object α) :=
  (insert x.beginNode value x).map Prod.fst

def popBack (x : Object α) : Option (Object α) := do erase (← x.heap.get x.endNode).prev x

def popFront (x : Object α) : Option (Object α) := erase x.beginNode x

/-- What the destructor and the assignments begin with. -/
def release (x : Object α) : Option (Object α) :=
  if x.empty then some x else eraseInternal x.beginNode x.endNode x

end Object

/-- The heap and the two pointers of each list. -/
structure State (ι : Type) (α : Type) where
  heap : Heap α
  lists : ι → Option ℕ × Option ℕ

/-- The operations. A constructor makes a new list in a place, and the list that was there before is
destroyed. Positions are given by the number of elements before them. -/
inductive Op (ι : Type) (α : Type)
  | construct (i : ι)
  | constructCount (i : ι) (count : ℕ) (value : α)
  | constructRange (i : ι) (values : List α)
  | constructCopy (i other : ι)
  | constructMove (i other : ι)
  | assignCopy (i other : ι)
  | assignMove (i other : ι)
  | insert (i : ι) (pos : ℕ) (value : α)
  | insertCount (i : ι) (pos count : ℕ) (value : α)
  | insertRange (i : ι) (pos : ℕ) (values : List α)
  | pushBack (i : ι) (value : α)
  | pushFront (i : ι) (value : α)
  | popBack (i : ι)
  | popFront (i : ι)
  | erase (i : ι) (pos : ℕ)
  | eraseRange (i : ι) (first last : ℕ)
  | clear (i : ι)
  | swap (i other : ι)

namespace State

variable {ι : Type} {α : Type} [DecidableEq ι]

def object (s : State ι α) (i : ι) : Object α := ⟨s.heap, (s.lists i).1, (s.lists i).2⟩

/-- A member function of a list is called. -/
def call (i : ι) (f : Object α → Option (Object α)) (s : State ι α) : Option (State ι α) := do
  let x ← f (s.object i)
  some ⟨x.heap, Function.update s.lists i (x.beginNode, x.endNode)⟩

/-- A list without nodes in place of the old one. -/
def renew (i : ι) (s : State ι α) : Option (State ι α) := do
  let s ← s.call i Object.release
  some { s with lists := Function.update s.lists i (none, none) }

/-- `insert(begin(), ...)` of the elements of another list, at the end of a constructor or an
assignment. The list itself has no elements at that time. -/
def insertOther (i other : ι) (s : State ι α) : Option (State ι α) := do
  let values ← (s.object other).elements
  s.call i fun x => (x.insertRange x.beginNode values).map Prod.fst

/-- The pointers of a list are moved. -/
def take (i other : ι) (s : State ι α) : State ι α :=
  { s with
    lists := Function.update (Function.update s.lists i (s.lists other)) other (none, none) }

def step (s : State ι α) : Op ι α → Option (State ι α)
  | .construct i => s.renew i
  | .constructCount i count value => do
      (← s.renew i).call i fun x => (x.insertCount x.beginNode count value).map Prod.fst
  | .constructRange i values => do
      (← s.renew i).call i fun x => (x.insertRange x.beginNode values).map Prod.fst
  | .constructCopy i other => do insertOther i other (← s.renew i)
  | .constructMove i other => do some (take i other (← s.renew i))
  | .assignCopy i other => do insertOther i other (← s.call i Object.release)
  | .assignMove i other => do some (take i other (← s.call i Object.release))
  | .insert i pos value => s.call i fun x => do
      ((x.insert (← x.heap.advance pos x.beginNode) value).map Prod.fst)
  | .insertCount i pos count value => s.call i fun x => do
      ((x.insertCount (← x.heap.advance pos x.beginNode) count value).map Prod.fst)
  | .insertRange i pos values => s.call i fun x => do
      ((x.insertRange (← x.heap.advance pos x.beginNode) values).map Prod.fst)
  | .pushBack i value => s.call i (Object.pushBack value)
  | .pushFront i value => s.call i (Object.pushFront value)
  | .popBack i => s.call i Object.popBack
  | .popFront i => s.call i Object.popFront
  | .erase i pos => s.call i fun x => do x.erase (← x.heap.advance pos x.beginNode)
  | .eraseRange i first last => s.call i fun x => do
      x.eraseInternal (← x.heap.advance first x.beginNode) (← x.heap.advance last x.beginNode)
  | .clear i => s.call i Object.clear
  | .swap i other => some { s with
      lists := Function.update (Function.update s.lists i (s.lists other)) other (s.lists i) }

/-- No list has nodes. -/
def init : State ι α := ⟨⟨fun _ => none, 0⟩, fun _ => (none, none)⟩

end State

/-- The operations on sequences. A constructor does not read its own place, and positions and removed
elements are there. -/
def Op.apply {ι : Type} {α : Type} [DecidableEq ι] (m : ι → List α) :
    Op ι α → Option (ι → List α)
  | .construct i => some (Function.update m i [])
  | .constructCount i count value => some (Function.update m i (List.replicate count value))
  | .constructRange i values => some (Function.update m i values)
  | .constructCopy i other => if i = other then none else some (Function.update m i (m other))
  | .constructMove i other =>
      if i = other then none
      else some (Function.update (Function.update m i (m other)) other [])
  | .assignCopy i other => some (Function.update m i (m other))
  | .assignMove i other => some (Function.update (Function.update m i (m other)) other [])
  | .insert i pos value =>
      if pos ≤ (m i).length then
        some (Function.update m i ((m i).take pos ++ value :: (m i).drop pos))
      else none
  | .insertCount i pos count value =>
      if pos ≤ (m i).length then
        some (Function.update m i ((m i).take pos ++ (List.replicate count value ++ (m i).drop pos)))
      else none
  | .insertRange i pos values =>
      if pos ≤ (m i).length then
        some (Function.update m i ((m i).take pos ++ (values ++ (m i).drop pos)))
      else none
  | .pushBack i value => some (Function.update m i (m i ++ [value]))
  | .pushFront i value => some (Function.update m i (value :: m i))
  | .popBack i => if m i = [] then none else some (Function.update m i (m i).dropLast)
  | .popFront i => if m i = [] then none else some (Function.update m i (m i).tail)
  | .erase i pos =>
      if pos < (m i).length then some (Function.update m i ((m i).take pos ++ (m i).drop (pos + 1)))
      else none
  | .eraseRange i first last =>
      if first ≤ last ∧ last ≤ (m i).length then
        some (Function.update m i ((m i).take first ++ (m i).drop last))
      else none
  | .clear i => some (Function.update m i [])
  | .swap i other => some (Function.update (Function.update m i (m other)) other (m i))

/-! ## The nodes of a list -/

variable {α : Type}

namespace Heap

/-- The heap after `modify`. -/
def set (a : ℕ) (f : Node α → Node α) (h : Heap α) : Heap α :=
  { h with cell := Function.update h.cell a ((h.cell a).map f) }

theorem set_cell (a : ℕ) (f : Node α → Node α) (h : Heap α) (b : ℕ) :
    (h.set a f).cell b = if b = a then (h.cell a).map f else h.cell b := by
  rw [set]
  exact Function.update_apply ..

@[simp] theorem set_bound (a : ℕ) (f : Node α → Node α) (h : Heap α) : (h.set a f).bound = h.bound :=
  rfl

theorem alloc_cell (h : Heap α) (a : ℕ) :
    h.alloc.cell a = if a = h.bound then some ⟨none, none, none⟩ else h.cell a := by
  rw [alloc]
  exact Function.update_apply ..

@[simp] theorem alloc_bound (h : Heap α) : h.alloc.bound = h.bound + 1 := rfl

theorem modify_eq {h : Heap α} {a : ℕ} (ha : (h.cell a).isSome) (f : Node α → Node α) :
    h.modify (some a) f = some (h.set a f) := by
  obtain ⟨n, hn⟩ := Option.isSome_iff_exists.mp ha
  simp [modify, set, hn]

def nextOf (h : Heap α) (a : ℕ) : Option ℕ := (h.cell a).bind Node.next

def prevOf (h : Heap α) (a : ℕ) : Option ℕ := (h.cell a).bind Node.prev

def dataOf (h : Heap α) (a : ℕ) : Option α := (h.cell a).bind Node.data
end Heap

/-- The nodes `l` of a list, the one after the last element included, spell out the sequence `xs`. -/
structure Holds (x : Object α) (l : List ℕ) (xs : List α) : Prop where
  head : x.beginNode = l.head?
  last : x.endNode = l.getLast?
  nodup : l.Nodup
  linked : Linked x.heap.nextOf x.heap.prevOf l
  data : l.dropLast.map x.heap.dataOf = xs.map some
  live : ∀ a ∈ l, a < x.heap.bound ∧ (x.heap.cell a).isSome

variable {x : Object α} {l l₁ l₂ : List ℕ} {xs xs₁ xs₂ : List α} {p : ℕ} {value : α}

theorem Holds.node (h : Holds x (l₁ ++ p :: l₂) xs) :
    ∃ n, x.heap.cell p = some n ∧ n.next = l₂.head? ∧ n.prev = l₁.getLast? := by
  obtain ⟨n, hn⟩ := Option.isSome_iff_exists.mp (h.live p (by simp)).2
  have hnext := h.linked.next_eq
  have hprev := h.linked.prev_eq
  rw [Heap.nextOf, hn] at hnext
  rw [Heap.prevOf, hn] at hprev
  exact ⟨n, hn, hnext, hprev⟩

/-- What `create_before` does in front of a node. -/
theorem createBefore_heap (h : Holds x (l₁ ++ p :: l₂) xs) {n : Node α} (hn : x.heap.cell p = some n)
    (value : α) :
    ∃ x', x.createBefore (some p) value = some (x', some x.heap.bound) ∧
      x'.heap.bound = x.heap.bound + 1 ∧ x'.beginNode = (l₁ ++ [x.heap.bound]).head? ∧
      x'.endNode = x.endNode ∧
      ∀ a, x'.heap.cell a =
        if a = x.heap.bound then some ⟨some value, some p, l₁.getLast?⟩
        else if a = p then some { n with prev := some x.heap.bound }
        else if l₁.getLast? = some a then
          (x.heap.cell a).map fun n => { n with next := some x.heap.bound }
        else x.heap.cell a := by
  have hp : p ≠ x.heap.bound := Nat.ne_of_lt (h.live p (by simp)).1
  have hhead := h.head
  have hprev := h.linked.prev_eq
  rw [Heap.prevOf, hn] at hprev
  change n.prev = _ at hprev
  rw [Object.createBefore]
  cases l₁ using List.reverseRecOn with
  | nil =>
      rw [Object.link, if_neg (by simp [hhead]), if_pos (by simp [hhead])]
      simp only [Option.bind_eq_bind]
      rw [Heap.modify_eq (by simp [Heap.alloc_cell]), Option.bind_some,
        Heap.modify_eq (by simp [Heap.alloc_cell, Heap.set_cell, hp, hn]), Option.bind_some,
        Option.bind_some, Heap.modify_eq (by simp [Heap.alloc_cell, Heap.set_cell, hp.symm]),
        Option.bind_some]
      refine ⟨_, rfl, rfl, rfl, rfl, fun a => ?_⟩
      simp only [Heap.set_cell, Heap.alloc_cell]
      by_cases hac : a = x.heap.bound
      · simp [hac, hp.symm]
      · by_cases hap : a = p
        · simp [hap, hp, hn]
        · simp [hac, hap]
  | append_singleton l₁ q _ =>
      have hqlive := h.live q (by simp)
      have hq : q ≠ x.heap.bound := Nat.ne_of_lt hqlive.1
      have hpq : p ≠ q := by
        rintro rfl
        have hnodup := h.nodup
        rw [List.append_assoc] at hnodup
        exact absurd (List.nodup_append.mp hnodup).2.1 (by simp)
      -- the node is not the first one
      have hfirst : ∃ b, x.beginNode = some b ∧ b ∈ l₁ ++ [q] := by
        rw [hhead]
        cases l₁ <;> simp
      obtain ⟨b, hb, hmem⟩ := hfirst
      have hpb : some p ≠ some b := by
        rintro hpb
        cases hpb
        exact absurd rfl ((List.nodup_append.mp h.nodup).2.2 p hmem p (List.mem_cons_self ..))
      rw [Object.link, if_neg (by simp [hb]), if_neg (by rw [hb]; exact hpb)]
      simp only [Option.bind_eq_bind]
      rw [Heap.get, Option.bind_some, Heap.alloc_cell, if_neg hp, hn, Option.bind_some, hprev,
        List.getLast?_concat, Heap.modify_eq (by simp [Heap.alloc_cell, hqlive.2, hq]),
        Option.bind_some, Heap.modify_eq (by simp [Heap.set_cell, Heap.alloc_cell, hq.symm]),
        Option.bind_some, Heap.modify_eq (by simp [Heap.set_cell, Heap.alloc_cell, hq.symm]),
        Option.bind_some, Heap.modify_eq (by simp [Heap.set_cell, Heap.alloc_cell, hp, hpq, hn]),
        Option.bind_some, Option.bind_some,
        Heap.modify_eq (by simp [Heap.set_cell, Heap.alloc_cell, hp.symm, hq.symm]), Option.bind_some]
      refine ⟨_, rfl, rfl, ?_, rfl, fun a => ?_⟩
      · rw [hhead]
        cases l₁ <;> simp
      · simp only [Heap.set_cell, Heap.alloc_cell]
        by_cases hac : a = x.heap.bound
        · simp [hac, hp.symm, hq.symm]
        · by_cases hap : a = p
          · simp [hap, hp, hpq, hn]
          · by_cases haq : a = q
            · simp [haq, hq, hpq.symm]
            · simp [hac, hap, haq, Ne.symm haq]

/-- The nodes of the other lists are as before, and the nodes of this one are its own or new. -/
structure Moves (x : Object α) (l : List ℕ) (x' : Object α) (l' : List ℕ) : Prop where
  cell : ∀ a, a < x.heap.bound → a ∉ l → x'.heap.cell a = x.heap.cell a
  mem : ∀ a ∈ l', a ∈ l ∨ x.heap.bound ≤ a
  bound : x.heap.bound ≤ x'.heap.bound

theorem Moves.refl (x : Object α) (l : List ℕ) : Moves x l x l :=
  ⟨fun _ _ _ => rfl, fun _ h => Or.inl h, Nat.le_refl _⟩

theorem Moves.trans {x x' x'' : Object α} {l l' l'' : List ℕ} (h : Moves x l x' l')
    (h' : Moves x' l' x'' l'') : Moves x l x'' l'' := by
  refine ⟨fun a ha hnot => ?_, fun a ha => ?_, Nat.le_trans h.bound h'.bound⟩
  · have hnot' : a ∉ l' := fun hmem => (h.mem a hmem).elim hnot (Nat.not_le.mpr ha)
    rw [h'.cell a (Nat.lt_of_lt_of_le ha h.bound) hnot', h.cell a ha hnot]
  · rcases h'.mem a ha with hmem | hle
    · exact h.mem a hmem
    · exact Or.inr (Nat.le_trans h.bound hle)

/-- The sequence, in the two parts before and from a node on. -/
theorem Holds.split (h : Holds x (l₁ ++ p :: l₂) (xs₁ ++ xs₂)) (hlen : l₁.length = xs₁.length) :
    l₁.map x.heap.dataOf = xs₁.map some ∧ (p :: l₂).dropLast.map x.heap.dataOf = xs₂.map some := by
  have hdata := h.data
  rw [List.dropLast_append_of_ne_nil (List.cons_ne_nil _ _), List.map_append, List.map_append] at hdata
  exact List.append_inj hdata (by simpa using hlen)

/-- `create_before` in front of a node. -/
theorem createBefore_at (h : Holds x (l₁ ++ p :: l₂) (xs₁ ++ xs₂)) (hlen : l₁.length = xs₁.length)
    (value : α) :
    ∃ x', x.createBefore (some p) value = some (x', some x.heap.bound) ∧
      Holds x' (l₁ ++ x.heap.bound :: p :: l₂) (xs₁ ++ value :: xs₂) ∧
      Moves x (l₁ ++ p :: l₂) x' (l₁ ++ x.heap.bound :: p :: l₂) := by
  obtain ⟨n, hn, hnext, -⟩ := h.node
  obtain ⟨x', hrun, hbound, hbegin, hend, hcell⟩ := createBefore_heap h hn value
  have hfresh : ∀ a ∈ l₁ ++ p :: l₂, a ≠ x.heap.bound := fun a ha => Nat.ne_of_lt (h.live a ha).1
  -- the data and the links at the nodes of before
  have hdata : ∀ a ∈ l₁ ++ p :: l₂, x'.heap.dataOf a = x.heap.dataOf a := by
    intro a ha
    rw [Heap.dataOf, Heap.dataOf, hcell, if_neg (hfresh a ha)]
    split
    · rename_i hap
      rw [hap, hn]
      rfl
    · split
      · cases x.heap.cell a <;> rfl
      · rfl
  have hnextOf : ∀ a ∈ l₁ ++ p :: l₂, l₁.getLast? ≠ some a → x'.heap.nextOf a = x.heap.nextOf a := by
    intro a ha hlast
    rw [Heap.nextOf, Heap.nextOf, hcell, if_neg (hfresh a ha), if_neg hlast]
    split
    · rename_i hap
      rw [hap, hn]
      rfl
    · rfl
  have hprevOf : ∀ a ∈ l₁ ++ p :: l₂, a ≠ p → x'.heap.prevOf a = x.heap.prevOf a := by
    intro a ha hap
    rw [Heap.prevOf, Heap.prevOf, hcell, if_neg (hfresh a ha), if_neg hap]
    split
    · cases x.heap.cell a <;> rfl
    · rfl
  have hlive : ∀ a ∈ l₁ ++ p :: l₂, (x'.heap.cell a).isSome := by
    intro a ha
    rw [hcell, if_neg (hfresh a ha)]
    split
    · rfl
    · split
      · simpa using (h.live a ha).2
      · exact (h.live a ha).2
  have hdisj := (List.nodup_append.mp h.nodup).2.2
  refine ⟨x', hrun, ⟨?_, ?_, ?_, ?_, ?_, ?_⟩, ?_, ?_, ?_⟩
  · rw [hbegin]
    cases l₁ <;> rfl
  · rw [hend, h.last]
    simp [List.getLast?_append, List.getLast?_cons]
  · rw [List.nodup_middle, List.nodup_cons]
    exact ⟨fun hmem => hfresh _ hmem rfl, h.nodup⟩
  · refine h.linked.insert h.nodup ?_ ?_ hnextOf ?_ ?_ ?_
    · rw [Heap.nextOf, hcell, if_pos rfl]
      rfl
    · rw [Heap.prevOf, hcell, if_pos rfl]
      rfl
    · intro a hlast
      have hmem := List.mem_of_getLast? hlast
      have ha : a ∈ l₁ ++ p :: l₂ := List.mem_append_left _ hmem
      have hap : a ≠ p := fun hap => hdisj a hmem p (List.mem_cons_self ..) hap
      obtain ⟨m, hm⟩ := Option.isSome_iff_exists.mp (h.live a ha).2
      rw [Heap.nextOf, hcell, if_neg (hfresh a ha), if_neg hap, if_pos hlast, hm]
      rfl
    · intro a ha hhead
      exact hprevOf a ha fun hap => hhead (by rw [hap]; rfl)
    · intro a hhead
      cases hhead
      rw [Heap.prevOf, hcell, if_neg (hfresh p (by simp)), if_pos rfl]
      rfl
  · obtain ⟨hleft, hright⟩ := h.split hlen
    rw [List.dropLast_append_of_ne_nil (List.cons_ne_nil _ _), List.dropLast_cons_of_ne_nil
      (List.cons_ne_nil _ _), List.map_append, List.map_append, List.map_cons, List.map_cons]
    congr 1
    · rw [← hleft]
      exact List.map_congr_left fun a ha => hdata a (List.mem_append_left _ ha)
    · congr 1
      · rw [Heap.dataOf, hcell, if_pos rfl]
        rfl
      · rw [← hright]
        exact List.map_congr_left fun a ha =>
          hdata a (List.mem_append_right _ (List.dropLast_subset _ ha))
  · intro a ha
    rw [hbound]
    rcases List.mem_append.mp ha with hmem | hmem
    · have hold : a ∈ l₁ ++ p :: l₂ := List.mem_append_left _ hmem
      exact ⟨Nat.lt_succ_of_lt (h.live a hold).1, hlive a hold⟩
    · rcases List.mem_cons.mp hmem with rfl | hmem
      · exact ⟨Nat.lt_succ_self _, by rw [hcell, if_pos rfl]; rfl⟩
      · have hold : a ∈ l₁ ++ p :: l₂ := List.mem_append_right _ hmem
        exact ⟨Nat.lt_succ_of_lt (h.live a hold).1, hlive a hold⟩
  · intro a ha hnot
    rw [hcell, if_neg (Nat.ne_of_lt ha), if_neg fun hap => hnot (by simp [hap]), if_neg]
    exact fun hlast => hnot (List.mem_append_left _ (List.mem_of_getLast? hlast))
  · intro a ha
    simp only [List.mem_append, List.mem_cons] at ha ⊢
    rcases ha with ha | rfl | ha
    · exact Or.inl (Or.inl ha)
    · exact Or.inr (Nat.le_refl _)
    · exact Or.inl (Or.inr ha)
  · rw [hbound]
    exact Nat.le_succ _
theorem Holds.beginNode_none (h : Holds x l xs) (hbegin : x.beginNode = none) :
    l = [] ∧ xs = [] ∧ x.endNode = none := by
  have hl : l = [] := by
    have hhead := h.head
    rw [hbegin] at hhead
    exact List.head?_eq_none_iff.mp hhead.symm
  subst hl
  have hdata := h.data
  exact ⟨rfl, by simpa using hdata.symm, h.last⟩

/-- The first insertion into a list without nodes. -/
theorem createBefore_nil (h : Holds x [] []) (pos : Option ℕ) (value : α) :
    ∃ x', x.createBefore pos value = some (x', some x.heap.bound) ∧
      Holds x' [x.heap.bound, x.heap.bound + 1] [value] ∧
      Moves x [] x' [x.heap.bound, x.heap.bound + 1] := by
  have hne : x.heap.bound ≠ x.heap.bound + 1 := Nat.ne_of_lt (Nat.lt_succ_self _)
  have hbegin : x.beginNode = none := h.head
  rw [Object.createBefore, Object.link, if_pos hbegin]
  simp only [Option.bind_eq_bind]
  rw [Heap.modify_eq (by simp [Heap.alloc_cell]), Option.bind_some, Heap.alloc_bound,
    Heap.modify_eq (by simp [Heap.alloc_cell, Heap.set_cell]), Option.bind_some, Option.bind_some,
    Heap.modify_eq (by simp [Heap.alloc_cell, Heap.set_cell]), Option.bind_some]
  refine ⟨_, rfl, ⟨rfl, rfl, by simp, ?_, ?_, ?_⟩, ?_, ?_, ?_⟩
  · intro m₁ a m₂ hm
    rcases m₁ with _ | ⟨b, _ | ⟨c, m₁⟩⟩
    · cases hm
      simp [Heap.prevOf, Heap.nextOf, Heap.set_cell, Heap.alloc_cell]
    · cases hm
      simp [Heap.prevOf, Heap.nextOf, Heap.set_cell, Heap.alloc_cell]
    · simp at hm
  · simp [Heap.dataOf, Heap.set_cell, Heap.alloc_cell]
  · intro a ha
    simp only [List.mem_cons, List.not_mem_nil, or_false] at ha
    rcases ha with rfl | rfl
    · refine ⟨?_, by simp [Heap.set_cell, Heap.alloc_cell]⟩
      simp only [Heap.set_bound, Heap.alloc_bound]
      omega
    · exact ⟨by simp, by simp [Heap.set_cell, Heap.alloc_cell]⟩
  · intro a ha _
    have ha' : a ≠ x.heap.bound + 1 := Nat.ne_of_lt (Nat.lt_succ_of_lt ha)
    simp [Heap.set_cell, Heap.alloc_cell, Nat.ne_of_lt ha, ha']
  · intro a ha
    simp only [List.mem_cons, List.not_mem_nil, or_false] at ha
    exact Or.inr (by omega)
  · simp
    omega

/-- The second insertion with the null pointer dereferences it. -/
theorem createAll_null {value' : α} {values : List α} (h : Holds x [] []) (x' : Object α)
    (hfirst : x.createBefore none value = some (x', some x.heap.bound)) :
    x'.createAll none (value' :: values) = none := by
  obtain ⟨y, hy, hholds, -⟩ := createBefore_nil h none value
  rw [hy] at hfirst
  cases hfirst
  have hhead : x'.beginNode = some x.heap.bound := hholds.head
  rw [Object.createAll, Object.createBefore, Object.link, if_neg (by simp [hhead]),
    if_neg (by simp [hhead])]
  rfl

/-- All insertions in front of a node. -/
theorem createAll_at (values : List α) (h : Holds x (l₁ ++ p :: l₂) (xs₁ ++ xs₂))
    (hlen : l₁.length = xs₁.length) :
    ∃ x' l', x.createAll (some p) values = some x' ∧
      Holds x' (l' ++ p :: l₂) (xs₁ ++ (values ++ xs₂)) ∧
      Moves x (l₁ ++ p :: l₂) x' (l' ++ p :: l₂) := by
  induction values generalizing x l₁ xs₁ with
  | nil => exact ⟨x, l₁, rfl, h, Moves.refl _ _⟩
  | cons value values ih =>
      obtain ⟨y, hy, hholds, hmoves⟩ := createBefore_at h hlen value
      have hholds' : Holds y ((l₁ ++ [x.heap.bound]) ++ p :: l₂) ((xs₁ ++ [value]) ++ xs₂) := by
        simpa using hholds
      obtain ⟨x', l', hrun, hx', hmoves'⟩ := ih hholds' (by simp [hlen])
      refine ⟨x', l', ?_, by simpa using hx', hmoves.trans (by simpa using hmoves')⟩
      rw [Object.createAll, hy]
      exact hrun

/-- The position with `k` elements before it. -/
theorem Holds.advance (h : Holds x l xs) {k : ℕ} (hk : k ≤ xs.length) :
    x.heap.advance k x.beginNode = some l[k]? := by
  have hlength : l.length - 1 = xs.length := by
    have hdata := congrArg List.length h.data
    simpa using hdata
  -- from a node with `j` nodes before it on
  have hwalk : ∀ k j, (k + j ≤ xs.length) → x.heap.advance k l[j]? = some l[j + k]? := by
    intro k
    induction k with
    | zero =>
        intro j _
        rfl
    | succ k ih =>
        intro j hj
        have hjl : j < l.length := by omega
        have hsplit : Holds x (l.take j ++ l[j] :: l.drop (j + 1)) xs := by simpa using h
        obtain ⟨n, hn, hnext, -⟩ := hsplit.node
        rw [List.getElem?_eq_getElem hjl, Heap.advance, Heap.get, Option.bind_some, hn]
        change x.heap.advance k n.next = _
        rw [hnext, List.head?_drop, ih (j + 1) (by omega), Nat.add_assoc, Nat.add_comm 1 k]
  have hzero := hwalk k 0 (by omega)
  rwa [← List.head?_eq_getElem?, ← h.head, Nat.zero_add] at hzero

theorem Holds.length_le (h : Holds x l xs) : l.length ≤ x.heap.bound := by
  have hsub : l ⊆ List.range x.heap.bound := fun a ha => List.mem_range.mpr (h.live a ha).1
  simpa using (List.subperm_of_subset h.nodup hsub).length_le

theorem Heap.deallocNode_eq {h : Heap α} {a : ℕ} (ha : (h.cell a).isSome) :
    h.deallocNode (some a) = some { h with cell := Function.update h.cell a none } := by
  obtain ⟨n, hn⟩ := Option.isSome_iff_exists.mp ha
  simp [Heap.deallocNode, hn]

/-- The loop frees the nodes of `m`. -/
theorem deallocUntil_spec (m : List ℕ) (h : Heap α) (turns : ℕ) (hturns : m.length ≤ turns)
    (hnodup : (m ++ [p]).Nodup)
    (hlink : ∀ m₁ a m₂, m = m₁ ++ a :: m₂ →
      ∃ n, h.cell a = some n ∧ n.next = (m₂ ++ [p]).head?) :
    ∃ h', Heap.deallocUntil (some p) turns (m ++ [p]).head? h = some h' ∧ h'.bound = h.bound ∧
      ∀ a, h'.cell a = if a ∈ m then none else h.cell a := by
  induction m generalizing h turns with
  | nil =>
      refine ⟨h, ?_, rfl, fun a => by simp⟩
      cases turns <;> simp [Heap.deallocUntil]
  | cons b m ih =>
      obtain ⟨turns, rfl⟩ : ∃ k, turns = k + 1 := ⟨turns - 1, by simp at hturns; omega⟩
      obtain ⟨n, hn, hnext⟩ := hlink [] b m rfl
      rw [List.cons_append, List.nodup_cons] at hnodup
      have hbp : some b ≠ some p := by
        rintro hbp
        cases hbp
        exact hnodup.1 (by simp)
      obtain ⟨h', hrun, hbound, hcell⟩ := ih { h with cell := Function.update h.cell b none } turns
        (by simpa using hturns) hnodup.2 fun m₁ a m₂ hm => by
          obtain ⟨n', hn', hnext'⟩ := hlink (b :: m₁) a m₂ (by rw [hm]; rfl)
          have hab : a ≠ b := by
            rintro rfl
            exact hnodup.1 (by simp [hm])
          exact ⟨n', by rw [← hn']; exact Function.update_of_ne hab _ _, hnext'⟩
      refine ⟨h', ?_, hbound, fun a => ?_⟩
      · rw [List.cons_append, List.head?_cons, Heap.deallocUntil, if_neg hbp, Heap.get, Option.bind_some,
          hn]
        simp only [Option.bind_eq_bind, Option.bind_some]
        rw [hnext, Heap.deallocNode_eq (by simp [hn])]
        exact hrun
      · rw [hcell]
        by_cases hab : a = b
        · simp [hab]
        · simp [hab]

/-- What `erase_internal` does with the nodes `b :: m`. -/
theorem eraseInternal_heap {b : ℕ} {m : List ℕ} (h : Holds x (l₁ ++ (b :: m ++ p :: l₂)) xs) :
    ∃ x', x.eraseInternal (some b) (some p) = some x' ∧
      x'.heap.bound = x.heap.bound ∧ x'.beginNode = (l₁ ++ [p]).head? ∧ x'.endNode = x.endNode ∧
      ∀ a, x'.heap.cell a =
        if a ∈ b :: m then none
        else if a = p then (x.heap.cell p).map fun n => { n with prev := l₁.getLast? }
        else if l₁.getLast? = some a then (x.heap.cell a).map fun n => { n with next := some p }
        else x.heap.cell a := by
  obtain ⟨hnodup₁, hnodup₂, hdisj⟩ := List.nodup_append.mp h.nodup
  obtain ⟨hnodupm, hnodupp, hdisjm⟩ := List.nodup_append.mp hnodup₂
  have hbp : some b ≠ some p := fun hbp =>
    hdisjm b (List.mem_cons_self ..) p (List.mem_cons_self ..) (Option.some.inj hbp)
  have hp : p ∉ b :: m := fun hmem => hdisjm p hmem p (List.mem_cons_self ..) rfl
  have hpne : ∀ a ∈ b :: m, a ≠ p := fun a ha => hdisjm a ha p (List.mem_cons_self ..)
  have hsplit : Holds x (l₁ ++ b :: (m ++ p :: l₂)) xs := by simpa using h
  obtain ⟨n, hn, -, hprev⟩ := hsplit.node
  have hplive := (h.live p (by simp)).2
  -- the loop, on a heap in which the links of the erased nodes are those of before
  have hloop : ∀ h' : Heap α, h'.bound = x.heap.bound →
      (∀ a ∈ b :: m, (h'.cell a) = x.heap.cell a) →
      ∃ h'', Heap.deallocUntil (some p) h'.bound (some b) h' = some h'' ∧ h''.bound = x.heap.bound ∧
        ∀ a, h''.cell a = if a ∈ b :: m then none else h'.cell a := by
    intro h' hbound hcell
    have hlength := h.length_le
    simp only [List.length_append, List.length_cons] at hlength
    obtain ⟨h'', hrun, hbound', hcell'⟩ := deallocUntil_spec (p := p) (b :: m) h' h'.bound
      (by rw [hbound, List.length_cons]; omega)
      (List.nodup_append.mpr ⟨hnodupm, List.nodup_singleton _, by
        intro a ha c hc hac
        rw [List.mem_singleton] at hc
        exact hp (hc ▸ hac ▸ ha)⟩)
      (by
        intro m₁ a m₂ hm
        have hsplit' : Holds x ((l₁ ++ m₁) ++ a :: (m₂ ++ p :: l₂)) xs := by
          rw [hm] at h
          simpa using h
        obtain ⟨n', hn', hnext, -⟩ := hsplit'.node
        refine ⟨n', ?_, ?_⟩
        · rw [hcell a (by simp [hm]), hn']
        · rw [hnext]
          cases m₂ <;> rfl)
    exact ⟨h'', hrun, hbound'.trans hbound, hcell'⟩
  rw [Object.eraseInternal, if_neg hbp, Heap.get, Option.bind_some, hn]
  simp only [Option.bind_eq_bind, Option.bind_some]
  cases l₁ using List.reverseRecOn with
  | nil =>
      rw [if_pos (by simp [h.head]), Heap.modify_eq hplive, Option.bind_some, hprev]
      obtain ⟨h'', hrun, hbound, hcell⟩ :=
        hloop (x.heap.set p fun n => { n with prev := none }) rfl fun a ha => by
          rw [Heap.set_cell, if_neg (hpne a ha)]
      rw [List.getLast?_nil, hrun, Option.bind_some]
      refine ⟨_, rfl, hbound, rfl, rfl, fun a => ?_⟩
      rw [hcell, Heap.set_cell]
      rfl
  | append_singleton l₁ q _ =>
      have hqlive := (h.live q (by simp)).2
      have hqm : q ∉ b :: m := fun hmem =>
        hdisj q (by simp) q (List.mem_append_left _ hmem) rfl
      have hqne : ∀ a ∈ b :: m, a ≠ q := fun a ha haq =>
        hdisj q (by simp) a (List.mem_append_left _ ha) haq.symm
      have hqp : p ≠ q := fun hpq => hdisj q (by simp) p (by simp) hpq.symm
      have hfirst : ∃ c, x.beginNode = some c ∧ c ∈ l₁ ++ [q] := by
        rw [h.head]
        cases l₁ <;> simp
      obtain ⟨c, hc, hmem⟩ := hfirst
      have hbc : some b ≠ some c := by
        rintro hbc
        cases hbc
        exact hdisj b hmem b (by simp) rfl
      rw [if_neg (by rw [hc]; exact hbc), hprev, List.getLast?_concat, Heap.modify_eq hqlive,
        Option.bind_some, Heap.modify_eq (by rw [Heap.set_cell, if_neg hqp]; exact hplive),
        Option.bind_some]
      obtain ⟨h'', hrun, hbound, hcell⟩ :=
        hloop ((x.heap.set q fun n => { n with next := some p }).set p fun n =>
          { n with prev := some q }) rfl fun a ha => by
          rw [Heap.set_cell, if_neg (hpne a ha), Heap.set_cell, if_neg (hqne a ha)]
      rw [hrun, Option.bind_some]
      refine ⟨_, rfl, hbound, ?_, rfl, fun a => ?_⟩
      · rw [h.head]
        cases l₁ <;> simp
      · rw [hcell]
        simp only [Heap.set_cell]
        by_cases hap : a = p
        · simp [hap, hp, hqp]
        · by_cases haq : a = q
          · simp [haq, hqm, hqp.symm]
          · simp [hap, haq, Ne.symm haq]

/-- The erasure of the nodes `m`. -/
theorem eraseInternal_at {m : List ℕ} {ys : List α}
    (h : Holds x (l₁ ++ (m ++ p :: l₂)) (xs₁ ++ (ys ++ xs₂))) (hlen₁ : l₁.length = xs₁.length)
    (hlen : m.length = ys.length) :
    ∃ x', x.eraseInternal (m ++ p :: l₂).head? (some p) = some x' ∧
      Holds x' (l₁ ++ p :: l₂) (xs₁ ++ xs₂) ∧
      Moves x (l₁ ++ (m ++ p :: l₂)) x' (l₁ ++ p :: l₂) := by
  cases m with
  | nil =>
      obtain rfl : ys = [] := List.length_eq_zero_iff.mp hlen.symm
      exact ⟨x, if_pos rfl, h, Moves.refl _ _⟩
  | cons b m =>
      obtain ⟨x', hrun, hbound, hbegin, hend, hcell⟩ := eraseInternal_heap h
      have hsub : ∀ a ∈ l₁ ++ p :: l₂, a ∈ l₁ ++ (b :: m ++ p :: l₂) := by
        intro a ha
        rcases List.mem_append.mp ha with hmem | hmem
        · exact List.mem_append_left _ hmem
        · exact List.mem_append_right _ (List.mem_append_right _ hmem)
      obtain ⟨hnodup₁, hnodup₂, hdisj⟩ := List.nodup_append.mp h.nodup
      obtain ⟨-, hnodupp, hdisjm⟩ := List.nodup_append.mp hnodup₂
      have hkept : ∀ a ∈ l₁ ++ p :: l₂, a ∉ b :: m := by
        intro a ha hmem
        rcases List.mem_append.mp ha with ha | ha
        · exact hdisj a ha a (List.mem_append_left _ hmem) rfl
        · exact hdisjm a hmem a ha rfl
      have hplive := (h.live p (by simp)).2
      obtain ⟨n, hn⟩ := Option.isSome_iff_exists.mp hplive
      have hnodup : (l₁ ++ p :: l₂).Nodup := List.nodup_append.mpr ⟨hnodup₁, hnodupp,
        fun a ha c hc => hdisj a ha c (List.mem_append_right _ hc)⟩
      -- what stays of the nodes that are kept
      have hdata : ∀ a ∈ l₁ ++ p :: l₂, x'.heap.dataOf a = x.heap.dataOf a := by
        intro a ha
        rw [Heap.dataOf, Heap.dataOf, hcell, if_neg (hkept a ha)]
        split
        · rename_i hap
          rw [hap, hn]
          rfl
        · split
          · cases x.heap.cell a <;> rfl
          · rfl
      refine ⟨x', hrun, ⟨?_, ?_, hnodup, ?_, ?_, ?_⟩, ?_, ?_, ?_⟩
      · rw [hbegin]
        cases l₁ <;> rfl
      · rw [hend, h.last]
        simp [List.getLast?_append, List.getLast?_cons]
      · refine h.linked.removeRange h.nodup ?_ ?_ ?_ ?_
        · intro a ha hlast
          rw [Heap.nextOf, Heap.nextOf, hcell, if_neg (hkept a ha), if_neg hlast]
          split
          · rename_i hap
            rw [hap, hn]
            rfl
          · rfl
        · intro a hlast
          have ha : a ∈ l₁ := List.mem_of_getLast? hlast
          have hap : a ≠ p := fun hap => hdisj a ha p (by simp) hap
          obtain ⟨k, hk⟩ := Option.isSome_iff_exists.mp (h.live a (List.mem_append_left _ ha)).2
          rw [Heap.nextOf, hcell, if_neg (hkept a (List.mem_append_left _ ha)), if_neg hap,
            if_pos hlast, hk]
          rfl
        · intro a ha hhead
          have hap : a ≠ p := fun hap => hhead (by rw [hap]; rfl)
          rw [Heap.prevOf, Heap.prevOf, hcell, if_neg (hkept a ha), if_neg hap]
          split
          · cases x.heap.cell a <;> rfl
          · rfl
        · intro a hhead
          cases hhead
          rw [Heap.prevOf, hcell, if_neg (hkept p (by simp)), if_pos rfl, hn]
          rfl
      · have hold := h.data
        rw [List.dropLast_append_of_ne_nil (by simp), List.dropLast_append_of_ne_nil (by simp),
          List.map_append, List.map_append, List.map_append, List.map_append] at hold
        obtain ⟨hleft, hrest⟩ := List.append_inj hold (by simpa using hlen₁)
        obtain ⟨-, hright⟩ := List.append_inj hrest (by simpa using hlen)
        rw [List.dropLast_append_of_ne_nil (by simp), List.map_append, List.map_append, ← hleft, ← hright]
        congr 1
        · exact List.map_congr_left fun a ha => hdata a (List.mem_append_left _ ha)
        · exact List.map_congr_left fun a ha =>
            hdata a (List.mem_append_right _ (List.dropLast_subset _ ha))
      · intro a ha
        rw [hbound]
        refine ⟨(h.live a (hsub a ha)).1, ?_⟩
        rw [hcell, if_neg (hkept a ha)]
        split
        · rw [hn]
          rfl
        · split
          · simpa using (h.live a (hsub a ha)).2
          · exact (h.live a (hsub a ha)).2
      · intro a _ hnot
        rw [hcell, if_neg fun hmem => hnot (List.mem_append_right _ (List.mem_append_left _ hmem)),
          if_neg fun hap => hnot (by simp [hap]), if_neg]
        exact fun hlast => hnot (List.mem_append_left _ (List.mem_of_getLast? hlast))
      · exact fun a ha => Or.inl (hsub a ha)
      · exact Nat.le_of_eq hbound.symm

/-! ## What is read -/

/-- What the members that do not change a list return, for the sequence `xs`. -/
structure Reads (x : Object α) (xs : List α) : Prop where
  elements : x.elements = some xs
  elementsBack : x.elementsBack = some xs.reverse
  size : x.size = some xs.length
  empty : x.empty = true ↔ xs = []
  front : xs ≠ [] → x.front = xs.head?
  back : xs ≠ [] → x.back = xs.getLast?

/-- A walk to the end. -/
theorem Holds.visit {e : ℕ} (h : Holds x l xs) (m : List ℕ) {ys : List α} {turns : ℕ}
    (hl : l = l₁ ++ (m ++ [e])) (hys : m.map x.heap.dataOf = ys.map some) (hturns : m.length ≤ turns) :
    x.heap.visit (some e) turns (m ++ [e]).head? = some ys := by
  induction m generalizing l₁ ys turns with
  | nil =>
      obtain rfl : ys = [] := by simpa using hys.symm
      cases turns <;> simp [Heap.visit]
  | cons a m ih =>
      obtain ⟨turns, rfl⟩ : ∃ k, turns = k + 1 := ⟨turns - 1, by simp at hturns; omega⟩
      rw [List.map_cons] at hys
      obtain ⟨value, ys, rfl⟩ : ∃ value ys', ys = value :: ys' := by
        cases ys with
        | nil => simp at hys
        | cons value ys' => exact ⟨value, ys', rfl⟩
      rw [List.map_cons, List.cons.injEq] at hys
      have hsplit : l = l₁ ++ a :: (m ++ [e]) := hl
      have hne : some a ≠ some e := by
        intro hae
        have hnodup := h.nodup
        rw [hsplit, Option.some.inj hae] at hnodup
        exact absurd (List.nodup_append.mp hnodup).2.1 (by simp)
      obtain ⟨n, hn, hnext, -⟩ := Holds.node (hsplit ▸ h)
      have hvalue : n.data = some value := by
        have hdata := hys.1
        rwa [Heap.dataOf, hn] at hdata
      rw [List.cons_append, List.head?_cons, Heap.visit, if_neg hne, Heap.get, Option.bind_some, hn]
      simp only [Option.bind_eq_bind, Option.bind_some, hvalue]
      have hl' : l = (l₁ ++ [a]) ++ (m ++ [e]) := by simpa using hl
      rw [hnext, ih hl' hys.2 (by simpa using hturns)]
      rfl

/-- A walk back to the first node. -/
theorem Holds.visitBack {e : ℕ} (h : Holds x l xs) (m : List ℕ) {ys : List α} {turns : ℕ}
    (hl : l = m ++ e :: l₂) (hys : m.map x.heap.dataOf = ys.map some) (hturns : m.length ≤ turns) :
    x.heap.visitBack x.beginNode turns (some e) = some ys.reverse := by
  induction m using List.reverseRecOn generalizing e l₂ ys turns with
  | nil =>
      obtain rfl : ys = [] := by simpa using hys.symm
      have hbegin : x.beginNode = some e := by
        rw [h.head, hl]
        rfl
      cases turns <;> simp [Heap.visitBack, hbegin]
  | append_singleton m q ih =>
      obtain ⟨turns, rfl⟩ : ∃ k, turns = k + 1 := ⟨turns - 1, by simp at hturns; omega⟩
      obtain ⟨ys, value, rfl⟩ : ∃ ys' value, ys = ys' ++ [value] := by
        cases ys using List.reverseRecOn with
        | nil => simp at hys
        | append_singleton ys' value _ => exact ⟨ys', value, rfl⟩
      rw [List.map_append, List.map_append] at hys
      obtain ⟨hys, hq⟩ := List.append_inj' hys rfl
      have hdisj := (List.nodup_append.mp (hl ▸ h.nodup)).2.2
      obtain ⟨b, hb, hmem⟩ : ∃ b, x.beginNode = some b ∧ b ∈ m ++ [q] := by
        rw [h.head, hl]
        cases m <;> simp
      have hne : some e ≠ x.beginNode := by
        rw [hb]
        exact fun heb => hdisj b hmem e (List.mem_cons_self ..) (Option.some.inj heb).symm
      obtain ⟨n, hn, -, hprev⟩ := Holds.node (hl ▸ h)
      obtain ⟨k, hk⟩ := Option.isSome_iff_exists.mp (h.live q (by simp [hl])).2
      have hvalue : k.data = some value := by
        simp only [List.map_cons, List.map_nil, List.cons.injEq, and_true] at hq
        rwa [Heap.dataOf, hk] at hq
      rw [Heap.visitBack, if_neg hne, Heap.get, Option.bind_some, hn]
      simp only [Option.bind_eq_bind, Option.bind_some]
      rw [hprev, List.getLast?_concat, Heap.get, Option.bind_some, hk]
      simp only [Option.bind_some, hvalue]
      have hl' : l = m ++ q :: (e :: l₂) := by simpa using hl
      rw [ih hl' hys (by simp at hturns; omega),
        List.reverse_append]
      rfl

theorem Holds.reads (h : Holds x l xs) : Reads x xs := by
  have hlength := h.length_le
  cases l using List.reverseRecOn with
  | nil =>
      obtain rfl : xs = [] := by simpa using h.data.symm
      have hbegin : x.beginNode = none := h.head
      have hend : x.endNode = none := h.last
      have helements : x.elements = some [] := by
        rw [Object.elements, hbegin, hend]
        cases x.heap.bound <;> simp [Heap.visit]
      refine ⟨helements, ?_, ?_, ?_, fun hne => absurd rfl hne, fun hne => absurd rfl hne⟩
      · rw [Object.elementsBack, hbegin, hend]
        cases x.heap.bound <;> simp [Heap.visitBack]
      · rw [Object.size, helements]
        rfl
      · simp [Object.empty, hbegin, hend]
  | append_singleton m e _ =>
      have hdata := h.data
      rw [List.dropLast_concat] at hdata
      have hend : x.endNode = some e := by
        rw [h.last, List.getLast?_concat]
      rw [List.length_append, List.length_singleton] at hlength
      have helements : x.elements = some xs := by
        rw [Object.elements, hend, h.head]
        exact h.visit m (List.nil_append (m ++ [e])).symm hdata (by omega)
      refine ⟨helements, ?_, ?_, ?_, fun hne => ?_, fun hne => ?_⟩
      · rw [Object.elementsBack, hend]
        exact h.visitBack m (show m ++ [e] = m ++ e :: [] from rfl) hdata (by omega)
      · rw [Object.size, helements]
        rfl
      · rw [Object.empty, decide_eq_true_iff, hend, h.head]
        cases m with
        | nil =>
            obtain rfl : xs = [] := by simpa using hdata.symm
            simp
        | cons a m =>
            have hae : a ≠ e := by
              rintro rfl
              exact absurd h.nodup (by simp)
            have hxs : xs ≠ [] := by
              rintro rfl
              simp at hdata
            simp [hae, hxs]
      · cases m with
        | nil => exact absurd (by simpa using hdata.symm) hne
        | cons a m =>
            cases xs with
            | nil => exact absurd rfl hne
            | cons value xs =>
                rw [List.map_cons, List.map_cons, List.cons.injEq] at hdata
                obtain ⟨n, hn⟩ := Option.isSome_iff_exists.mp (h.live a (by simp)).2
                have hvalue := hdata.1
                rw [Heap.dataOf, hn] at hvalue
                rw [Object.front, h.head, List.cons_append, List.head?_cons, Heap.get, Option.bind_some, hn]
                exact hvalue
      · cases m using List.reverseRecOn with
        | nil => exact absurd (by simpa using hdata.symm) hne
        | append_singleton m q _ =>
            cases xs using List.reverseRecOn with
            | nil => exact absurd rfl hne
            | append_singleton xs value _ =>
                rw [List.map_append, List.map_append] at hdata
                obtain ⟨-, hq⟩ := List.append_inj' hdata rfl
                simp only [List.map_cons, List.map_nil, List.cons.injEq, and_true] at hq
                obtain ⟨n, hn, -, hprev⟩ := h.node
                obtain ⟨k, hk⟩ := Option.isSome_iff_exists.mp (h.live q (by simp)).2
                rw [Heap.dataOf, hk] at hq
                rw [Object.back, hend, Heap.get, Option.bind_some, hn]
                simp only [Option.bind_eq_bind, Option.bind_some]
                rw [hprev, List.getLast?_concat, List.getLast?_concat, Heap.get, Option.bind_some, hk]
                exact hq

/-! ## Positions -/

theorem Holds.length_nodes (h : Holds x l xs) (hl : l ≠ []) : l.length = xs.length + 1 := by
  have hdata := congrArg List.length h.data
  have hpos := List.length_pos_of_ne_nil hl
  simp only [List.length_map, List.length_dropLast] at hdata
  omega

theorem Holds.begin_eq (h : Holds x l xs) : x.beginNode = l[0]? := by
  rw [h.head, List.head?_eq_getElem?]

theorem Holds.end_eq (h : Holds x l xs) : x.endNode = l[xs.length]? := by
  rw [h.last, List.getLast?_eq_getElem?]
  by_cases hl : l = []
  · simp [hl]
  · rw [h.length_nodes hl, Nat.add_sub_cancel]

theorem Holds.begin_none_iff (h : Holds x l xs) : x.beginNode = none ↔ l = [] := by
  rw [h.head, List.head?_eq_none_iff]

/-- The node at a position, with the nodes and the elements before it. -/
theorem Holds.node_at (h : Holds x l xs) (hl : l ≠ []) {k : ℕ} (hk : k ≤ xs.length) :
    ∃ p l₂, l = l.take k ++ p :: l₂ ∧ l[k]? = some p ∧ (l.take k).length = (xs.take k).length := by
  have hlength := h.length_nodes hl
  have hkl : k < l.length := by omega
  refine ⟨l[k], l.drop (k + 1), by simp, List.getElem?_eq_getElem hkl, ?_⟩
  rw [List.length_take, List.length_take]
  omega

/-- The operation returns a list with the elements `xs'`. -/
def Gives (x : Object α) (l : List ℕ) (r : Option (Object α)) (xs' : List α) : Prop :=
  ∃ x' l', r = some x' ∧ Holds x' l' xs' ∧ Moves x l x' l'

/-- The insertions at a position, of at most one element if there are no nodes. -/
theorem Holds.createAll (h : Holds x l xs) {k : ℕ} (hk : k ≤ xs.length) (values : List α)
    (hnodes : x.beginNode = none → values.length < 2) :
    Gives x l (x.createAll l[k]? values) (xs.take k ++ (values ++ xs.drop k)) := by
  by_cases hl : l = []
  · subst hl
    obtain ⟨-, rfl, -⟩ := h.beginNode_none h.head
    match values with
    | [] => exact ⟨x, [], rfl, by simpa using h, Moves.refl _ _⟩
    | [value] =>
        obtain ⟨x', hrun, hholds, hmoves⟩ := createBefore_nil h none value
        refine ⟨x', _, ?_, by simpa using hholds, hmoves⟩
        rw [List.getElem?_nil, Object.createAll, hrun]
        rfl
    | _ :: _ :: values => exact absurd (hnodes h.head) (by simp)
  · obtain ⟨p, l₂, heq, hp, hlen⟩ := h.node_at hl hk
    have hsplit : Holds x (l.take k ++ p :: l₂) (xs.take k ++ xs.drop k) := by
      rwa [← heq, List.take_append_drop]
    obtain ⟨x', l', hrun, hholds, hmoves⟩ := createAll_at values hsplit hlen
    exact ⟨x', _, by rw [hp, hrun], hholds, by rwa [← heq] at hmoves⟩

/-- More than one insertion into a list without nodes. -/
theorem Holds.createAll_stuck (h : Holds x l xs) (hbegin : x.beginNode = none) {values : List α}
    (hvalues : 2 ≤ values.length) : x.createAll none values = none := by
  obtain ⟨rfl, rfl, -⟩ := h.beginNode_none hbegin
  match values with
  | [] => simp at hvalues
  | [_] => simp at hvalues
  | value :: value' :: values =>
      obtain ⟨x', hrun, -⟩ := createBefore_nil h none value
      rw [Object.createAll, hrun]
      exact createAll_null h x' hrun

theorem insertRange_fst (pos : Option ℕ) (values : List α) (x : Object α) :
    (x.insertRange pos values).map Prod.fst = x.createAll pos values := by
  cases values with
  | nil => rfl
  | cons value values =>
      rw [Object.insertRange, Object.createAll]
      cases x.createBefore pos value with
      | none => rfl
      | some r =>
          obtain ⟨y, first⟩ := r
          change Option.map Prod.fst ((y.createAll pos values).bind fun z => some (z, first)) =
            y.createAll pos values
          cases y.createAll pos values <;> rfl

theorem insertCount_fst (pos : Option ℕ) (count : ℕ) (value : α) (x : Object α) :
    (x.insertCount pos count value).map Prod.fst = x.createAll pos (List.replicate count value) := by
  rw [← insertRange_fst]
  cases count with
  | zero => rfl
  | succ count => rfl

theorem insert_fst (pos : Option ℕ) (value : α) (x : Object α) :
    (x.insert pos value).map Prod.fst = x.createAll pos [value] := by
  rw [← insertRange_fst, Object.insert, Object.insertRange]
  cases x.createBefore pos value <;> rfl

theorem split_range {β : Type} (l : List β) {k k' : ℕ} (hk : k ≤ k') :
    l.take k ++ ((l.take k').drop k ++ l.drop k') = l := by
  have htake : l.take k = (l.take k').take k := by rw [List.take_take, Nat.min_eq_left hk]
  rw [htake, ← List.append_assoc, List.take_append_drop, List.take_append_drop]

/-- The erasure of a range. A list keeps the node after its last element. -/
theorem Holds.eraseInternal (h : Holds x l xs) {k k' : ℕ} (hk : k ≤ k') (hk' : k' ≤ xs.length) :
    ∃ x' l', x.eraseInternal l[k]? l[k']? = some x' ∧ Holds x' l' (xs.take k ++ xs.drop k') ∧
      Moves x l x' l' ∧ (l' = [] ↔ l = []) := by
  by_cases hl : l = []
  · subst hl
    obtain ⟨-, rfl, -⟩ := h.beginNode_none h.head
    exact ⟨x, [], if_pos rfl, by simpa using h, Moves.refl _ _, Iff.rfl⟩
  · have hlength := h.length_nodes hl
    have hlt : k' < l.length := by omega
    have hdrop : l.drop k' = l[k'] :: l.drop (k' + 1) := List.drop_eq_getElem_cons hlt
    have heq : l.take k ++ ((l.take k').drop k ++ l[k'] :: l.drop (k' + 1)) = l := by
      rw [← hdrop, split_range l hk]
    have hsplit : Holds x (l.take k ++ ((l.take k').drop k ++ l[k'] :: l.drop (k' + 1)))
        (xs.take k ++ ((xs.take k').drop k ++ xs.drop k')) := by
      rwa [heq, split_range xs hk]
    obtain ⟨x', hrun, hholds, hmoves⟩ := eraseInternal_at hsplit
      (by rw [List.length_take, List.length_take]; omega)
      (by simp only [List.length_drop, List.length_take]; omega)
    have hfirst : ((l.take k').drop k ++ l[k'] :: l.drop (k' + 1)).head? = l[k]? := by
      rw [← hdrop, List.append_cancel_left ((split_range l hk).trans (List.take_append_drop k l).symm),
        List.head?_drop]
    refine ⟨x', _, ?_, hholds, by rwa [heq] at hmoves,
      fun hnil => absurd hnil (List.append_ne_nil_of_right_ne_nil _ (List.cons_ne_nil _ _)),
      fun hnil => absurd hnil hl⟩
    rw [← hfirst, List.getElem?_eq_getElem hlt]
    exact hrun

theorem Holds.erase (h : Holds x l xs) {k : ℕ} (hk : k < xs.length) :
    Gives x l (x.erase l[k]?) (xs.take k ++ xs.drop (k + 1)) := by
  have hl : l ≠ [] := by
    rintro rfl
    obtain ⟨-, rfl, -⟩ := h.beginNode_none h.head
    simp at hk
  obtain ⟨p, l₂, heq, hp, -⟩ := h.node_at hl (Nat.le_of_lt hk)
  obtain ⟨n, hn, hnext, -⟩ := Holds.node (heq ▸ h)
  have hnext' : n.next = l[k + 1]? := by
    have hlength := h.length_nodes hl
    rw [hnext, heq, List.getElem?_append_right (by rw [List.length_take]; omega), List.length_take,
      Nat.min_eq_left (by omega), Nat.add_sub_cancel_left, List.head?_eq_getElem?]
    rfl
  obtain ⟨x', l', hrun, hholds, hmoves, -⟩ := h.eraseInternal (Nat.le_succ k) hk
  refine ⟨x', l', ?_, hholds, hmoves⟩
  rw [Object.erase, hp, Heap.get, Option.bind_some, hn]
  simp only [Option.bind_eq_bind, Option.bind_some]
  rw [hnext', ← hp]
  exact hrun

theorem Holds.clear (h : Holds x l xs) :
    ∃ x' l', x.clear = some x' ∧ Holds x' l' [] ∧ Moves x l x' l' ∧ (l' = [] ↔ l = []) := by
  rw [Object.clear, h.begin_eq, h.end_eq]
  simpa using h.eraseInternal (Nat.zero_le xs.length) (Nat.le_refl _)

theorem Holds.release (h : Holds x l xs) :
    ∃ x' l', x.release = some x' ∧ Holds x' l' [] ∧ Moves x l x' l' ∧ (l' = [] ↔ l = []) := by
  rw [Object.release]
  split
  · rename_i hempty
    rw [h.reads.empty] at hempty
    subst hempty
    exact ⟨x, l, rfl, h, Moves.refl _ _, Iff.rfl⟩
  · exact h.clear

theorem Holds.popFront (h : Holds x l xs) (hxs : xs ≠ []) : Gives x l x.popFront xs.tail := by
  rw [Object.popFront, h.begin_eq]
  have hgives := h.erase (List.length_pos_of_ne_nil hxs)
  rwa [List.take_zero, List.nil_append, List.drop_one] at hgives

theorem Holds.popBack (h : Holds x l xs) (hxs : xs ≠ []) : Gives x l x.popBack xs.dropLast := by
  have hpos := List.length_pos_of_ne_nil hxs
  have hl : l ≠ [] := by
    rintro rfl
    exact hxs (h.beginNode_none h.head).2.1
  obtain ⟨p, l₂, heq, hp, hlen⟩ := h.node_at hl (Nat.le_refl xs.length)
  obtain ⟨n, hn, -, hprev⟩ := Holds.node (heq ▸ h)
  have hlength := h.length_nodes hl
  have hprev' : n.prev = l[xs.length - 1]? := by
    rw [hprev, List.getLast?_eq_getElem?, List.length_take, Nat.min_eq_left (by omega),
      List.getElem?_take_of_lt (by omega)]
  have hgives := h.erase (k := xs.length - 1) (by omega)
  rw [Nat.sub_add_cancel hpos, List.drop_length, List.append_nil, ← List.dropLast_eq_take] at hgives
  rw [Object.popBack, h.end_eq, hp, Heap.get, Option.bind_some, hn]
  simp only [Option.bind_eq_bind, Option.bind_some]
  rw [hprev']
  exact hgives

theorem Holds.pushBack (h : Holds x l xs) (value : α) :
    Gives x l (x.pushBack value) (xs ++ [value]) := by
  rw [Object.pushBack, insert_fst, h.end_eq]
  have hgives := h.createAll (Nat.le_refl xs.length) [value] fun _ => by simp
  rwa [List.take_length, List.drop_length, List.append_nil] at hgives

theorem Holds.pushFront (h : Holds x l xs) (value : α) :
    Gives x l (x.pushFront value) (value :: xs) := by
  rw [Object.pushFront, insert_fst, h.begin_eq]
  exact h.createAll (Nat.zero_le _) [value] fun _ => by simp


/-! ## Runs -/

section Runs

variable {ι : Type} [DecidableEq ι] {s s' : State ι α} {own : ι → List ℕ} {m m' : ι → List α} {i : ι}

/-- The lists hold the sequences, each with nodes of its own. -/
structure Owns (s : State ι α) (own : ι → List ℕ) (m : ι → List α) : Prop where
  holds : ∀ i, Holds (s.object i) (own i) (m i)
  disjoint : ∀ i j, i ≠ j → ∀ a ∈ own i, a ∉ own j

/-- The nodes that an operation does not touch. -/
theorem Holds.congr {x' : Object α} (h : Holds x l xs) (hbegin : x'.beginNode = x.beginNode)
    (hend : x'.endNode = x.endNode) (hbound : x.heap.bound ≤ x'.heap.bound)
    (hcell : ∀ a ∈ l, x'.heap.cell a = x.heap.cell a) : Holds x' l xs := by
  refine ⟨hbegin.trans h.head, hend.trans h.last, h.nodup, ?_, ?_, fun a ha => ?_⟩
  · refine h.linked.congr (fun a ha => ?_) fun a ha => ?_
    · rw [Heap.nextOf, Heap.nextOf, hcell a ha]
    · rw [Heap.prevOf, Heap.prevOf, hcell a ha]
  · rw [← h.data]
    refine List.map_congr_left fun a ha => ?_
    rw [Heap.dataOf, Heap.dataOf, hcell a (List.dropLast_subset _ ha)]
  · exact ⟨Nat.lt_of_lt_of_le (h.live a ha).1 hbound, hcell a ha ▸ (h.live a ha).2⟩

namespace Owns

/-- A member function of one list. -/
theorem call (h : Owns s own m) {f : Object α → Option (Object α)} {x' : Object α} {l' : List ℕ}
    {xs' : List α} (hrun : f (s.object i) = some x') (hx : Holds x' l' xs')
    (hmoves : Moves (s.object i) (own i) x' l') :
    ∃ s', s.call i f = some s' ∧ Owns s' (Function.update own i l') (Function.update m i xs') := by
  refine ⟨_, by rw [State.call, hrun]; rfl, fun j => ?_, fun j k hjk a ha => ?_⟩
  · by_cases hj : j = i
    · subst hj
      rw [Function.update_self, Function.update_self]
      refine hx.congr ?_ ?_ (Nat.le_refl _) fun a _ => rfl
      · simp [State.object]
      · simp [State.object]
    · rw [Function.update_of_ne hj, Function.update_of_ne hj]
      refine (h.holds j).congr ?_ ?_ hmoves.bound fun a ha => ?_
      · simp [State.object, hj]
      · simp [State.object, hj]
      · exact hmoves.cell a ((h.holds j).live a ha).1 (h.disjoint j i hj a ha)
  · -- a node is new, or was the list's own before
    by_cases hj : j = i
    · subst hj
      rw [Function.update_self] at ha
      rw [Function.update_of_ne (Ne.symm hjk)]
      rcases hmoves.mem a ha with hmem | hle
      · exact h.disjoint j k hjk a hmem
      · exact fun hk => absurd ((h.holds k).live a hk).1 (Nat.not_lt.mpr hle)
    · rw [Function.update_of_ne hj] at ha
      by_cases hk : k = i
      · subst hk
        rw [Function.update_self]
        intro hmem
        rcases hmoves.mem a hmem with hmem | hle
        · exact h.disjoint j k hjk a ha hmem
        · exact absurd ((h.holds j).live a ha).1 (Nat.not_lt.mpr hle)
      · rw [Function.update_of_ne hk]
        exact h.disjoint j k hjk a ha

theorem gives (h : Owns s own m) {f : Object α → Option (Object α)} {xs' : List α}
    (hf : Gives (s.object i) (own i) (f (s.object i)) xs') :
    ∃ s' own', s.call i f = some s' ∧ Owns s' own' (Function.update m i xs') := by
  obtain ⟨x', l', hrun, hx, hmoves⟩ := hf
  obtain ⟨s', hs', howns⟩ := h.call hrun hx hmoves
  exact ⟨s', _, hs', howns⟩

omit [DecidableEq ι] in
/-- The lists change places. A place that gets no list gets one without nodes, and a list that gets no
place is lost with its nodes. -/
theorem rename (h : Owns s own m) (g : ι → Option ι)
    (hg : ∀ j k c, g j = some c → g k = some c → j = k) :
    Owns { s with lists := fun j => (g j).elim (none, none) s.lists } (fun j => (g j).elim [] own)
      fun j => (g j).elim [] m := by
  refine ⟨fun j => ?_, fun j k hjk a ha hmem => ?_⟩
  · rw [State.object]
    dsimp only
    cases g j with
    | none => exact ⟨rfl, rfl, List.nodup_nil, Linked.nil, rfl, nofun⟩
    | some c => exact h.holds c
  · cases hj : g j with
    | none =>
        rw [hj] at ha
        cases ha
    | some c =>
        cases hk : g k with
        | none =>
            rw [hk] at hmem
            cases hmem
        | some d =>
            rw [hj] at ha
            rw [hk] at hmem
            refine h.disjoint c d (fun hcd => hjk (hg j k c hj ?_)) a ha hmem
            rw [hk, hcd]

theorem elim_update {β : Type} (g : ι → Option ι) (i : ι) (c : Option ι) (d : β) (f : ι → β) :
    (fun j => (Function.update g i c j).elim d f) =
      Function.update (fun j => (g j).elim d f) i (c.elim d f) := by
  funext j
  by_cases hj : j = i
  · rw [hj, Function.update_self, Function.update_self]
  · rw [Function.update_of_ne hj, Function.update_of_ne hj]

/-- A list without nodes in a place. -/
theorem drop (h : Owns s own m) (i : ι) :
    Owns { s with lists := Function.update s.lists i (none, none) } (Function.update own i [])
      (Function.update m i []) := by
  have hrename := h.rename (Function.update some i none) fun j k c hj hk => by
    by_cases hji : j = i
    · rw [hji, Function.update_self] at hj
      cases hj
    · by_cases hki : k = i
      · rw [hki, Function.update_self] at hk
        cases hk
      · rw [Function.update_of_ne hji] at hj
        rw [Function.update_of_ne hki] at hk
        cases hj
        exact (Option.some.inj hk).symm
  simp only [elim_update, Option.elim_some, Option.elim_none] at hrename
  exact hrename

/-- The pointers of a list are moved into another place. -/
theorem take (h : Owns s own m) (i other : ι) :
    ∃ own', Owns (s.take i other) own'
      (Function.update (Function.update m i (m other)) other []) := by
  have hrename := h.rename (Function.update (Function.update some i (some other)) other none)
    fun j k c hj hk => by grind [Function.update_apply]
  simp only [elim_update, Option.elim_some, Option.elim_none] at hrename
  exact ⟨_, hrename⟩

theorem swap (h : Owns s own m) (i other : ι) :
    ∃ own', Owns { s with
        lists := Function.update (Function.update s.lists i (s.lists other)) other (s.lists i) } own'
      (Function.update (Function.update m i (m other)) other (m i)) := by
  have hrename := h.rename (Function.update (Function.update some i (some other)) other (some i))
    fun j k c hj hk => by grind [Function.update_apply]
  simp only [elim_update, Option.elim_some] at hrename
  exact ⟨_, hrename⟩

/-- The start of an assignment. -/
theorem release (h : Owns s own m) (i : ι) :
    ∃ s' own', s.call i Object.release = some s' ∧ Owns s' own' (Function.update m i []) ∧
      (own' i = [] ↔ own i = []) := by
  obtain ⟨x', l', hrun, hx, hmoves, hnil⟩ := (h.holds i).release
  obtain ⟨s', hs', howns⟩ := h.call hrun hx hmoves
  exact ⟨s', _, hs', howns, by rw [Function.update_self]; exact hnil⟩

/-- The start of a constructor. -/
theorem renew (h : Owns s own m) (i : ι) :
    ∃ s' own', s.renew i = some s' ∧ Owns s' own' (Function.update m i []) ∧ own' i = [] := by
  obtain ⟨s', own', hs', howns, -⟩ := h.release i
  have hdrop := howns.drop i
  rw [Function.update_idem] at hdrop
  refine ⟨_, _, ?_, hdrop, Function.update_self ..⟩
  rw [State.renew, hs']
  rfl

omit [DecidableEq ι] in
theorem nodes_iff (h : Owns s own m) (i : ι) : (s.lists i).1 = none ↔ own i = [] :=
  (h.holds i).begin_none_iff

omit [DecidableEq ι] in
/-- Insertions at a position. -/
theorem createAll (h : Owns s own m) {k : ℕ} (hk : k ≤ (m i).length) (values : List α)
    (hnodes : own i = [] → values.length < 2) :
    Gives (s.object i) (own i) ((s.object i).createAll (own i)[k]? values)
      ((m i).take k ++ (values ++ (m i).drop k)) :=
  (h.holds i).createAll hk values fun hbegin => hnodes ((h.holds i).begin_none_iff.mp hbegin)

/-- Insertions into a list without elements, as the constructors and assignments do. -/
theorem insertBegin (h : Owns s own m) (hempty : m i = []) (values : List α)
    (hnodes : own i = [] → values.length < 2) :
    ∃ s' own', (s.call i fun x => x.createAll x.beginNode values) = some s' ∧
      Owns s' own' (Function.update m i values) := by
  refine h.gives ?_
  have hgives := h.createAll (k := 0) (Nat.zero_le _) values hnodes
  rw [hempty, List.take_nil, List.drop_nil, List.append_nil, List.nil_append] at hgives
  rw [(h.holds i).begin_eq]
  exact hgives

theorem insertBegin_stuck (h : Owns s own m) (hnodes : own i = []) {values : List α}
    (hvalues : 2 ≤ values.length) : (s.call i fun x => x.createAll x.beginNode values) = none := by
  have hbegin : (s.object i).beginNode = none := (h.holds i).begin_none_iff.mpr hnodes
  rw [State.call, hbegin, (h.holds i).createAll_stuck hbegin hvalues]
  rfl

theorem insertOther_eq (h : Owns s own m) (other : ι) :
    s.insertOther i other = s.call i fun x => x.createAll x.beginNode (m other) := by
  rw [State.insertOther, (h.holds other).reads.elements]
  simp only [Option.bind_eq_bind, Option.bind_some]
  rw [funext fun x : Object α => insertRange_fst x.beginNode (m other) x]

end Owns

/-- No more than one element is inserted into a list without nodes, and no list with elements is
assigned to itself. -/
def Sound (s : State ι α) (m : ι → List α) : Op ι α → Prop
  | .constructCount _ count _ => count < 2
  | .constructRange _ values => values.length < 2
  | .constructCopy _ other => (m other).length < 2
  | .assignCopy i other =>
      if i = other then m i = [] else (s.lists i).1 = none → (m other).length < 2
  | .insertCount i _ count _ => (s.lists i).1 = none → count < 2
  | .insertRange i _ values => (s.lists i).1 = none → values.length < 2
  | _ => True

/-- What a call of a member needs to know about the position. -/
theorem Owns.position (h : Owns s own m) {k : ℕ} (hk : k ≤ (m i).length)
    (f : Object α → Option ℕ → Option (Object α)) :
    (s.call i fun x => do f x (← x.heap.advance k x.beginNode)) =
      s.call i fun x => f x (own i)[k]? := by
  rw [State.call, State.call]
  simp only [Option.bind_eq_bind]
  rw [(h.holds i).advance hk, Option.bind_some]

/-- An operation that is sound does on the lists what it does on the sequences. -/
theorem Owns.step (h : Owns s own m) {op : Op ι α} (hop : op.apply m = some m') (hsound : Sound s m op) :
    ∃ s' own', s.step op = some s' ∧ Owns s' own' m' := by
  cases op with
  | construct i =>
      cases hop
      obtain ⟨s', own', hs', howns, -⟩ := h.renew i
      exact ⟨s', own', hs', howns⟩
  | constructCount i count value =>
      cases hop
      obtain ⟨s₁, own₁, hs₁, howns, hnil⟩ := h.renew i
      obtain ⟨s', own', hs', howns'⟩ := howns.insertBegin (i := i) (Function.update_self ..)
        (List.replicate count value) fun _ => by rw [List.length_replicate]; exact hsound
      rw [Function.update_idem] at howns'
      refine ⟨s', own', ?_, howns'⟩
      rw [State.step, hs₁]
      simp only [Option.bind_eq_bind, Option.bind_some, insertCount_fst]
      exact hs'
  | constructRange i values =>
      cases hop
      obtain ⟨s₁, own₁, hs₁, howns, hnil⟩ := h.renew i
      obtain ⟨s', own', hs', howns'⟩ := howns.insertBegin (i := i) (Function.update_self ..) values
        fun _ => hsound
      rw [Function.update_idem] at howns'
      refine ⟨s', own', ?_, howns'⟩
      rw [State.step, hs₁]
      simp only [Option.bind_eq_bind, Option.bind_some, insertRange_fst]
      exact hs'
  | constructCopy i other =>
      rw [Op.apply] at hop
      split at hop
      · cases hop
      · rename_i hne
        cases hop
        obtain ⟨s₁, own₁, hs₁, howns, hnil⟩ := h.renew i
        have hother : Function.update m i [] other = m other := Function.update_of_ne (Ne.symm hne) ..
        obtain ⟨s', own', hs', howns'⟩ := howns.insertBegin (i := i) (Function.update_self ..) (m other)
          fun _ => hsound
        rw [Function.update_idem] at howns'
        refine ⟨s', own', ?_, howns'⟩
        rw [State.step, hs₁]
        simp only [Option.bind_eq_bind, Option.bind_some]
        rw [howns.insertOther_eq, hother]
        exact hs'
  | constructMove i other =>
      rw [Op.apply] at hop
      split at hop
      · cases hop
      · rename_i hne
        cases hop
        obtain ⟨s₁, own₁, hs₁, howns, hnil⟩ := h.renew i
        obtain ⟨own', howns'⟩ := howns.take i other
        rw [Function.update_idem, Function.update_of_ne (Ne.symm hne)] at howns'
        exact ⟨_, own', by rw [State.step, hs₁]; rfl, howns'⟩
  | assignCopy i other =>
      cases hop
      obtain ⟨s₁, own₁, hs₁, howns, hnil⟩ := h.release i
      rw [Sound] at hsound
      have hvalues : Function.update m i [] other = m other ∧
          (own₁ i = [] → (m other).length < 2) := by
        by_cases hio : i = other
        · rw [if_pos hio] at hsound
          rw [← hio, Function.update_self, hsound]
          exact ⟨rfl, fun _ => by simp⟩
        · rw [if_neg hio] at hsound
          exact ⟨Function.update_of_ne (Ne.symm hio) .., fun hown =>
            hsound ((h.nodes_iff i).mpr (hnil.mp hown))⟩
      obtain ⟨s', own', hs', howns'⟩ := howns.insertBegin (i := i) (Function.update_self ..) (m other)
        hvalues.2
      rw [Function.update_idem] at howns'
      refine ⟨s', own', ?_, howns'⟩
      rw [State.step, hs₁]
      simp only [Option.bind_eq_bind, Option.bind_some]
      rw [howns.insertOther_eq, hvalues.1]
      exact hs'
  | assignMove i other =>
      cases hop
      obtain ⟨s₁, own₁, hs₁, howns, -⟩ := h.release i
      obtain ⟨own', howns'⟩ := howns.take i other
      refine ⟨_, own', by rw [State.step, hs₁]; rfl, ?_⟩
      by_cases hio : i = other
      · rw [hio, Function.update_idem] at howns' ⊢
        rwa [Function.update_idem] at howns'
      · rwa [Function.update_idem, Function.update_of_ne (Ne.symm hio)] at howns'
  | insert i pos value =>
      rw [Op.apply] at hop
      split at hop
      · rename_i hpos
        cases hop
        rw [State.step, h.position hpos fun x p => (x.insert p value).map Prod.fst]
        refine h.gives ?_
        rw [insert_fst]
        exact h.createAll hpos [value] fun _ => by simp
      · cases hop
  | insertCount i pos count value =>
      rw [Op.apply] at hop
      split at hop
      · rename_i hpos
        cases hop
        rw [State.step, h.position hpos fun x p => (x.insertCount p count value).map Prod.fst]
        refine h.gives ?_
        rw [insertCount_fst]
        refine h.createAll hpos _ fun hown => ?_
        rw [List.length_replicate]
        exact hsound ((h.nodes_iff i).mpr hown)
      · cases hop
  | insertRange i pos values =>
      rw [Op.apply] at hop
      split at hop
      · rename_i hpos
        cases hop
        rw [State.step, h.position hpos fun x p => (x.insertRange p values).map Prod.fst]
        refine h.gives ?_
        rw [insertRange_fst]
        exact h.createAll hpos values fun hown => hsound ((h.nodes_iff i).mpr hown)
      · cases hop
  | pushBack i value =>
      cases hop
      exact h.gives ((h.holds i).pushBack value)
  | pushFront i value =>
      cases hop
      exact h.gives ((h.holds i).pushFront value)
  | popBack i =>
      rw [Op.apply] at hop
      split at hop
      · cases hop
      · rename_i hne
        cases hop
        exact h.gives ((h.holds i).popBack hne)
  | popFront i =>
      rw [Op.apply] at hop
      split at hop
      · cases hop
      · rename_i hne
        cases hop
        exact h.gives ((h.holds i).popFront hne)
  | erase i pos =>
      rw [Op.apply] at hop
      split at hop
      · rename_i hpos
        cases hop
        rw [State.step, h.position (Nat.le_of_lt hpos) fun x p => x.erase p]
        exact h.gives ((h.holds i).erase hpos)
      · cases hop
  | eraseRange i first last =>
      rw [Op.apply] at hop
      split at hop
      · rename_i hpos
        cases hop
        rw [State.step]
        refine h.gives ?_
        simp only [Option.bind_eq_bind]
        rw [(h.holds i).advance (Nat.le_trans hpos.1 hpos.2), Option.bind_some,
          (h.holds i).advance hpos.2, Option.bind_some]
        obtain ⟨x', l', hrun, hx, hmoves, -⟩ := (h.holds i).eraseInternal hpos.1 hpos.2
        exact ⟨x', l', hrun, hx, hmoves⟩
      · cases hop
  | clear i =>
      cases hop
      obtain ⟨x', l', hrun, hx, hmoves, -⟩ := (h.holds i).clear
      exact h.gives ⟨x', l', hrun, hx, hmoves⟩
  | swap i other =>
      cases hop
      obtain ⟨own', howns'⟩ := h.swap i other
      exact ⟨_, own', rfl, howns'⟩

/-- An operation that is not sound dereferences a null pointer or loses the elements of a list. -/
theorem Owns.not_step (h : Owns s own m) {op : Op ι α} (hop : op.apply m = some m')
    (hsound : ¬ Sound s m op) (hstep : s.step op = some s') :
    ¬ ∀ i, Reads (s'.object i) (m' i) := by
  cases op with
  | constructCount i count value =>
      obtain ⟨s₁, own₁, hs₁, howns, hnil⟩ := h.renew i
      rw [State.step, hs₁] at hstep
      simp only [Option.bind_eq_bind, Option.bind_some, insertCount_fst] at hstep
      rw [howns.insertBegin_stuck hnil (by rw [List.length_replicate]; exact Nat.not_lt.mp hsound)]
        at hstep
      cases hstep
  | constructRange i values =>
      obtain ⟨s₁, own₁, hs₁, howns, hnil⟩ := h.renew i
      rw [State.step, hs₁] at hstep
      simp only [Option.bind_eq_bind, Option.bind_some, insertRange_fst] at hstep
      rw [howns.insertBegin_stuck hnil (Nat.not_lt.mp hsound)] at hstep
      cases hstep
  | constructCopy i other =>
      rw [Op.apply] at hop
      split at hop
      · cases hop
      · rename_i hne
        obtain ⟨s₁, own₁, hs₁, howns, hnil⟩ := h.renew i
        rw [State.step, hs₁] at hstep
        simp only [Option.bind_eq_bind, Option.bind_some] at hstep
        rw [howns.insertOther_eq, Function.update_of_ne (Ne.symm hne),
          howns.insertBegin_stuck hnil (Nat.not_lt.mp hsound)] at hstep
        cases hstep
  | assignCopy i other =>
      cases hop
      obtain ⟨s₁, own₁, hs₁, howns, hnil⟩ := h.release i
      rw [State.step, hs₁] at hstep
      simp only [Option.bind_eq_bind, Option.bind_some] at hstep
      rw [howns.insertOther_eq] at hstep
      rw [Sound] at hsound
      by_cases hio : i = other
      · -- the elements are gone before they are copied
        subst hio
        rw [if_pos rfl] at hsound
        rw [Function.update_self] at hstep
        obtain ⟨s₂, own₂, hs₂, howns₂⟩ := howns.insertBegin (i := i) (Function.update_self ..) []
          fun _ => by simp
        rw [hs₂] at hstep
        cases hstep
        intro hreads
        have hnow := (howns₂.holds i).reads.elements
        rw [Function.update_self] at hnow
        have hthen := (hreads i).elements
        rw [Function.update_self, hnow] at hthen
        exact hsound (Option.some.inj hthen).symm
      · rw [if_neg hio, Classical.not_imp] at hsound
        rw [Function.update_of_ne (Ne.symm hio), howns.insertBegin_stuck
          (hnil.mpr ((h.nodes_iff i).mp hsound.1)) (Nat.not_lt.mp hsound.2)] at hstep
        cases hstep
  | insertCount i pos count value =>
      rw [Op.apply] at hop
      split at hop
      · rename_i hpos
        obtain ⟨hnodes, hcount⟩ := Classical.not_imp.mp hsound
        have hnil := (h.nodes_iff i).mp hnodes
        rw [State.step, h.position hpos fun x p => (x.insertCount p count value).map Prod.fst,
          State.call, insertCount_fst, hnil, List.getElem?_nil, (h.holds i).createAll_stuck hnodes
          (by rw [List.length_replicate]; exact Nat.not_lt.mp hcount)] at hstep
        cases hstep
      · cases hop
  | insertRange i pos values =>
      rw [Op.apply] at hop
      split at hop
      · rename_i hpos
        obtain ⟨hnodes, hcount⟩ := Classical.not_imp.mp hsound
        have hnil := (h.nodes_iff i).mp hnodes
        rw [State.step, h.position hpos fun x p => (x.insertRange p values).map Prod.fst,
          State.call, insertRange_fst, hnil, List.getElem?_nil, (h.holds i).createAll_stuck hnodes
          (Nat.not_lt.mp hcount)] at hstep
        cases hstep
      · cases hop
  | _ => exact absurd trivial hsound

/-- The lists and the sequences side by side. -/
def system (ι α : Type) [DecidableEq ι] :
    TransitionSystem (State ι α × (ι → List α)) (Op ι α) where
  init q := q = (State.init, fun _ => [])
  step q op q' := op.apply q.2 = some q'.2 ∧ q.1.step op = some q'.1

/-- The runs of sound operations. -/
def soundRuns (ι α : Type) [DecidableEq ι] : TransitionSystem (State ι α × (ι → List α)) (Op ι α) :=
  (system ι α).restrict fun q op => Sound q.1 q.2 op

theorem owns_of_reachable {q : State ι α × (ι → List α)} (h : (soundRuns ι α).Reachable q) :
    ∃ own, Owns q.1 own q.2 := by
  refine h.invariant (I := fun q => ∃ own, Owns q.1 own q.2) ?_ ?_
  · intro q hq
    cases hq
    refine ⟨fun _ => [], fun i => ?_, fun i j _ a ha => absurd ha List.not_mem_nil⟩
    exact ⟨rfl, rfl, List.nodup_nil, Linked.nil, rfl, nofun⟩
  · intro q op q' _ hq hstep
    obtain ⟨own, hown⟩ := hq
    obtain ⟨s', own', hs', howns'⟩ := hown.step hstep.2.1 hstep.1
    rw [hstep.2.2] at hs'
    cases hs'
    exact ⟨own', howns'⟩

/-- In every run of sound operations the lists read as the sequences. And an operation on them runs
without a null pointer and reads as the sequences again exactly if it is sound. -/
theorem list_refines {q : State ι α × (ι → List α)} (h : (soundRuns ι α).Reachable q) :
    (∀ i, Reads (q.1.object i) (q.2 i)) ∧
    ∀ op m', op.apply q.2 = some m' →
      ((∃ s', q.1.step op = some s' ∧ ∀ i, Reads (s'.object i) (m' i)) ↔ Sound q.1 q.2 op) := by
  obtain ⟨own, hown⟩ := owns_of_reachable h
  refine ⟨fun i => (hown.holds i).reads, fun op m' hop => ⟨?_, fun hsound => ?_⟩⟩
  · rintro ⟨s', hstep, hreads⟩
    by_contra hsound
    exact hown.not_step hop hsound hstep hreads
  · obtain ⟨s', own', hs', howns'⟩ := hown.step hop hsound
    exact ⟨s', hs', fun i => (howns'.holds i).reads⟩

end Runs

/-- A list with one element is read. -/
theorem list_refines_one :
    ∃ s', (State.init : State Unit ℕ).step (.pushBack () 7) = some s' ∧
      ∀ i, Reads (s'.object i) (Function.update (fun _ => []) () [7] i) :=
  ((list_refines (q := ((State.init : State Unit ℕ), fun _ => [])) (.init rfl)).2
    (.pushBack () 7) _ rfl).mpr trivial

/-- Two elements are inserted into a new list. -/
theorem insert_two :
    ¬ ∀ (q : State Unit ℕ × (Unit → List ℕ)), (system Unit ℕ).Reachable q →
      ∀ op m', op.apply q.2 = some m' →
        ∃ s', q.1.step op = some s' ∧ ∀ i, Reads (s'.object i) (m' i) := by
  intro h
  obtain ⟨s', hstep, -⟩ := h (State.init, fun _ => []) (.init rfl) (.insertRange () 0 [1, 2]) _ rfl
  cases hstep

end Ilobilix.StdList
