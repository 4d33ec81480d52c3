import Ilobilix.Foundation.Dependencies
import Ilobilix.Foundation.Fuel
import Mathlib.Data.List.Nodup
import Mathlib.Logic.Function.Basic

/-!
# The initialisation graph

Stages and tasks are the nodes of a graph, and each belongs to one of two engines. A task brings its
edges with it: from the nodes it requires, and to the nodes it entails. An edge counts in the
`unsatisfied` of its target until its source is done.

`run` of an engine activates nodes from a queue. It is filled at the start with the nodes that nothing
is missing for, and from then on with the nodes whose counter comes to zero. The queue holds only nodes
that are wanted, so a node waits until its own engine is run.

`Tracks` is the invariant: a counter is the number of edges from nodes that are not done, and the queue
has the nodes that are wanted, not done and counted down. `boot_order` has the consequences for the two
runs of the kernel.
-/

namespace Ilobilix.Initgraph

universe u

inductive Engine
  | presched
  | postsched
deriving DecidableEq, Repr

/-- A stage or a task as it is constructed. -/
inductive Item (ν : Type u)
  | stage (node : ν) (engine : Engine)
  | task (node : ν) (engine : Engine) (require entail : List ν)

namespace Item

variable {ν : Type u}

def node : Item ν → ν
  | stage node _ => node
  | task node _ _ _ => node

def engine : Item ν → Engine
  | stage _ engine => engine
  | task _ engine _ _ => engine

/-- The edges of a task, with source and target, in the order of their construction. -/
def edges : Item ν → List (ν × ν)
  | stage _ _ => []
  | task node _ require entail =>
      (require.map fun source => (source, node)) ++ entail.map fun target => (node, target)

end Item

/-- `bug_on`, or a run that is cut off. -/
inductive Fault
  | bugOn
  | fuel
deriving DecidableEq, Repr

/-- The engines and the nodes. The calls of `activate` are recorded, first call first. -/
structure State (ν : Type u) where
  nodes : Engine → List ν
  outlist : ν → List ν
  wanted : ν → Bool
  done : ν → Bool
  unsatisfied : ν → ℕ
  activated : List ν

namespace State

variable {ν : Type u} [DecidableEq ν]

def init : State ν := ⟨fun _ => [], fun _ => [], fun _ => false, fun _ => false, fun _ => 0, []⟩

/-- The constructor of `node`. -/
def realiseNode (node : ν) (engine : Engine) (s : State ν) : State ν :=
  { s with
    nodes := Function.update s.nodes engine (s.nodes engine ++ [node])
    outlist := Function.update s.outlist node []
    wanted := Function.update s.wanted node false
    done := Function.update s.done node false
    unsatisfied := Function.update s.unsatisfied node 0 }

def realiseEdge (s : State ν) (edge : ν × ν) : State ν :=
  { s with
    outlist := Function.update s.outlist edge.1 (s.outlist edge.1 ++ [edge.2])
    unsatisfied := Function.update s.unsatisfied edge.2 ((s.unsatisfied edge.2 + 1) % 2 ^ 32) }

/-- The constructors of `stage` and `task`. -/
def realise (s : State ν) (item : Item ν) : State ν :=
  item.edges.foldl realiseEdge (s.realiseNode item.node item.engine)

/-- A node for which the loops of `run` push or count. -/
def isMissing (s : State ν) (node : ν) : Bool := s.wanted node && !s.done node

def isReady (s : State ν) (node : ν) : Bool := s.isMissing node && s.unsatisfied node == 0

/-- The body of the loop over the edges of a node that is done. -/
def satisfy (q : State ν × List ν) (successor : ν) : Except Fault (State ν × List ν) :=
  if q.1.unsatisfied successor = 0 then .error .bugOn
  else
    let s : State ν :=
      { q.1 with
        unsatisfied := Function.update q.1.unsatisfied successor (q.1.unsatisfied successor - 1) }
    .ok (s, if s.isReady successor then q.2 ++ [successor] else q.2)

/-- A node is activated. -/
def activate (current : ν) (s : State ν) : State ν :=
  { s with done := Function.update s.done current true, activated := s.activated ++ [current] }

/-- The loop over `_pending`. -/
def drain : ℕ → State ν → List ν → Except Fault (State ν)
  | 0, _, _ => .error .fuel
  | _ + 1, s, [] => .ok s
  | fuel + 1, s, current :: pending =>
      if s.isMissing current = false then .error .bugOn
      else
        (s.outlist current).foldlM satisfy (s.activate current, pending) >>= fun q =>
          drain fuel q.1 q.2

def want (engine : Engine) (s : State ν) : State ν :=
  { s with wanted := fun node => decide (node ∈ s.nodes engine) || s.wanted node }

/-- `run` of an engine, and whether it reaches its panic. -/
def run (engine : Engine) (s : State ν) (fuel : ℕ) : Except Fault (State ν × Bool) :=
  let s := s.want engine
  s.drain fuel ((s.nodes engine).filter s.isReady) >>= fun s =>
    let unreached := (s.nodes engine).countP s.isMissing % 2 ^ 32
    .ok (s, unreached != 0)

end State

/-- Every node is constructed once, and before the edges from or to it. -/
def Declared {ν : Type u} (seen : List ν) : List (Item ν) → Prop
  | [] => True
  | item :: items =>
      item.node ∉ seen ∧
      (∀ edge ∈ item.edges, edge.1 ∈ item.node :: seen ∧ edge.2 ∈ item.node :: seen) ∧
      Declared (item.node :: seen) items

/-- Stages and tasks. They are objects of the kernel image, which is linked into the highest two
gibibytes, and so are their edges: a counter of 32 bits can count them. -/
structure Graph (ν : Type u) where
  items : List (Item ν)
  declared : Declared [] items
  count_lt : items.length + (items.flatMap Item.edges).length < 2 ^ 32

namespace Graph

variable {ν : Type u}

def edges (g : Graph ν) : List (ν × ν) := g.items.flatMap Item.edges

/-- The target depends on the source. -/
def Depends (g : Graph ν) (source target : ν) : Prop := (source, target) ∈ g.edges

def nodes (g : Graph ν) (engine : Engine) : List ν :=
  (g.items.filter fun item => item.engine = engine).map Item.node

/-- The graph before the first run. -/
def realised [DecidableEq ν] (g : Graph ν) : State ν := g.items.foldl State.realise State.init

end Graph

/-! ## Construction -/

variable {ν : Type u}

/-- The nodes of the items are new and different, and their edges have no other nodes. -/
theorem Declared.spec {seen : List ν} {items : List (Item ν)} (h : Declared seen items) :
    (items.map Item.node).Nodup ∧ (∀ node ∈ items.map Item.node, node ∉ seen) ∧
    ∀ edge ∈ items.flatMap Item.edges,
      edge.1 ∈ items.map Item.node ++ seen ∧ edge.2 ∈ items.map Item.node ++ seen := by
  induction items generalizing seen with
  | nil => simp
  | cons item items ih =>
      obtain ⟨hnode, hedges, hrest⟩ := h
      obtain ⟨hnodup, hnew, hmem⟩ := ih hrest
      refine ⟨?_, ?_, ?_⟩
      · rw [List.map_cons, List.nodup_cons]
        exact ⟨fun h => hnew _ h (List.mem_cons_self ..), hnodup⟩
      · intro node hin
        rw [List.map_cons, List.mem_cons] at hin
        rcases hin with rfl | hin
        · exact hnode
        · exact fun h => hnew node hin (List.mem_cons_of_mem _ h)
      · intro edge hin
        -- the node of the item moves from the ones seen to the ones of the list
        have hmove : ∀ node, node ∈ items.map Item.node ++ item.node :: seen →
            node ∈ (item :: items).map Item.node ++ seen := by
          intro node h
          simp only [List.map_cons, List.cons_append, List.mem_append, List.mem_cons] at h ⊢
          tauto
        rw [List.flatMap_cons, List.mem_append] at hin
        rcases hin with hin | hin
        · exact ⟨hmove _ (List.mem_append_right _ (hedges edge hin).1),
            hmove _ (List.mem_append_right _ (hedges edge hin).2)⟩
        · exact ⟨hmove _ (hmem edge hin).1, hmove _ (hmem edge hin).2⟩

namespace Graph

theorem mem_nodes {g : Graph ν} {engine : Engine} {node : ν} :
    node ∈ g.nodes engine ↔ ∃ item ∈ g.items, item.engine = engine ∧ item.node = node := by
  simp [nodes, and_assoc]

theorem nodup_nodes (g : Graph ν) (engine : Engine) : (g.nodes engine).Nodup :=
  g.declared.spec.1.sublist (List.filter_sublist.map _)

/-- A node has one engine. -/
theorem engine_unique {g : Graph ν} {e e' : Engine} {node : ν} (h : node ∈ g.nodes e)
    (h' : node ∈ g.nodes e') : e = e' := by
  obtain ⟨item, hitem, rfl, rfl⟩ := mem_nodes.mp h
  obtain ⟨item', hitem', rfl, heq⟩ := mem_nodes.mp h'
  rw [List.inj_on_of_nodup_map g.declared.spec.1 hitem' hitem heq]

theorem source_mem {g : Graph ν} {source target : ν} (h : g.Depends source target) :
    source ∈ g.items.map Item.node := by
  have hmem := (g.declared.spec.2.2 _ h).1
  rwa [List.append_nil] at hmem

theorem mem_map_node {g : Graph ν} {node : ν} :
    node ∈ g.items.map Item.node ↔ ∃ engine, node ∈ g.nodes engine := by
  simp [mem_nodes]

end Graph

variable [DecidableEq ν]

/-- The edges from a node, in the order of their construction. -/
def targets (edges : List (ν × ν)) (node : ν) : List ν :=
  (edges.filter fun edge => edge.1 = node).map Prod.snd

theorem mem_targets {edges : List (ν × ν)} {node target : ν} :
    target ∈ targets edges node ↔ (node, target) ∈ edges := by
  simp [targets]

/-- The state that the constructors of the items lead to. -/
structure Realised (s : State ν) (items : List (Item ν)) : Prop where
  nodes : ∀ engine, s.nodes engine = (items.filter fun item => item.engine = engine).map Item.node
  outlist : ∀ node, s.outlist node = targets (items.flatMap Item.edges) node
  unsatisfied : ∀ node,
    s.unsatisfied node = (items.flatMap Item.edges).countP fun edge => edge.2 = node
  wanted : ∀ node, s.wanted node = false
  done : ∀ node, s.done node = false
  activated : s.activated = []

theorem foldl_realiseEdge_outlist (edges : List (ν × ν)) (s : State ν) (node : ν) :
    (edges.foldl State.realiseEdge s).outlist node = s.outlist node ++ targets edges node := by
  induction edges generalizing s with
  | nil => simp [targets]
  | cons edge edges ih =>
      rw [List.foldl_cons, ih, State.realiseEdge]
      dsimp only
      by_cases h : node = edge.1
      · simp [h, targets]
      · rw [Function.update_of_ne h]
        simp [targets, Ne.symm h]

theorem foldl_realiseEdge_unsatisfied (edges : List (ν × ν)) (s : State ν) (node : ν)
    (h : s.unsatisfied node + edges.length < 2 ^ 32) :
    (edges.foldl State.realiseEdge s).unsatisfied node =
      s.unsatisfied node + edges.countP fun edge => edge.2 = node := by
  induction edges generalizing s with
  | nil => simp
  | cons edge edges ih =>
      rw [List.length_cons] at h
      have hstep : (s.realiseEdge edge).unsatisfied node =
          s.unsatisfied node + if edge.2 = node then 1 else 0 := by
        rw [State.realiseEdge]
        dsimp only
        by_cases heq : node = edge.2
        · rw [heq, Function.update_self, if_pos rfl, ← heq, Nat.mod_eq_of_lt (by omega)]
        · rw [Function.update_of_ne heq, if_neg (Ne.symm heq), Nat.add_zero]
      rw [List.foldl_cons, ih _ (by rw [hstep]; split <;> omega), hstep, List.countP_cons]
      simp only [decide_eq_true_eq]
      omega

/-- The edges of an item do not change the rest of the state. -/
theorem foldl_realiseEdge_frame (edges : List (ν × ν)) (s : State ν) :
    (edges.foldl State.realiseEdge s).nodes = s.nodes ∧
    (edges.foldl State.realiseEdge s).wanted = s.wanted ∧
    (edges.foldl State.realiseEdge s).done = s.done ∧
    (edges.foldl State.realiseEdge s).activated = s.activated := by
  induction edges generalizing s with
  | nil => exact ⟨rfl, rfl, rfl, rfl⟩
  | cons edge edges ih => exact ih _

/-- A new item comes after the others. The edges so far do not use its node, so the constructor of the
node forgets nothing. -/
theorem Realised.realise {s : State ν} {items : List (Item ν)} {seen : List ν} (h : Realised s items)
    (item : Item ν) (hnode : item.node ∉ seen)
    (hseen : ∀ edge ∈ items.flatMap Item.edges, edge.1 ∈ seen ∧ edge.2 ∈ seen)
    (hcount : (items.flatMap Item.edges).length + item.edges.length < 2 ^ 32) :
    Realised (s.realise item) (items ++ [item]) := by
  have hflat : (items ++ [item]).flatMap Item.edges = items.flatMap Item.edges ++ item.edges := by simp
  obtain ⟨hnodes, hwanted, hdone, hactivated⟩ :=
    foldl_realiseEdge_frame item.edges (s.realiseNode item.node item.engine)
  have houtlist : ∀ node, (s.realiseNode item.node item.engine).outlist node =
      targets (items.flatMap Item.edges) node := by
    intro node
    rw [State.realiseNode]
    dsimp only
    by_cases heq : node = item.node
    · rw [heq, Function.update_self, eq_comm, List.eq_nil_iff_forall_not_mem]
      exact fun target hmem => hnode (hseen _ (mem_targets.mp hmem)).1
    · rw [Function.update_of_ne heq, h.outlist]
  have hunsatisfied : ∀ node, (s.realiseNode item.node item.engine).unsatisfied node =
      (items.flatMap Item.edges).countP fun edge => edge.2 = node := by
    intro node
    rw [State.realiseNode]
    dsimp only
    by_cases heq : node = item.node
    · rw [heq, Function.update_self, eq_comm, List.countP_eq_zero]
      intro edge hmem heq'
      exact hnode (of_decide_eq_true heq' ▸ (hseen edge hmem).2)
    · rw [Function.update_of_ne heq, h.unsatisfied]
  constructor
  · intro engine
    rw [State.realise, hnodes, State.realiseNode]
    dsimp only
    by_cases heq : engine = item.engine
    · rw [heq, Function.update_self, h.nodes]
      simp
    · rw [Function.update_of_ne heq, h.nodes]
      simp [Ne.symm heq]
  · intro node
    rw [State.realise, foldl_realiseEdge_outlist, houtlist, hflat]
    simp [targets]
  · intro node
    have hle := List.countP_le_length (p := fun edge : ν × ν => decide (edge.2 = node))
      (l := items.flatMap Item.edges)
    rw [State.realise, foldl_realiseEdge_unsatisfied _ _ _ (by rw [hunsatisfied]; omega),
      hunsatisfied, hflat, List.countP_append]
  · intro node
    rw [State.realise, hwanted, State.realiseNode]
    dsimp only
    by_cases heq : node = item.node
    · rw [heq, Function.update_self]
    · rw [Function.update_of_ne heq, h.wanted]
  · intro node
    rw [State.realise, hdone, State.realiseNode]
    dsimp only
    by_cases heq : node = item.node
    · rw [heq, Function.update_self]
    · rw [Function.update_of_ne heq, h.done]
  · rw [State.realise, hactivated]
    exact h.activated

theorem Realised.foldl {s : State ν} {pre items : List (Item ν)} (seen : List ν) (h : Realised s pre)
    (hdeclared : Declared seen items)
    (hseen : ∀ edge ∈ pre.flatMap Item.edges, edge.1 ∈ seen ∧ edge.2 ∈ seen)
    (hcount : (pre.flatMap Item.edges).length + (items.flatMap Item.edges).length < 2 ^ 32) :
    Realised (items.foldl State.realise s) (pre ++ items) := by
  induction items generalizing s pre seen with
  | nil => rwa [List.append_nil]
  | cons item items ih =>
      obtain ⟨hnode, hedges, hrest⟩ := hdeclared
      rw [List.flatMap_cons, List.length_append] at hcount
      have hnext := h.realise item hnode hseen (by omega)
      rw [List.foldl_cons, show pre ++ item :: items = pre ++ [item] ++ items by simp]
      refine ih _ hnext hrest (fun edge hmem => ?_) ?_
      · rw [List.flatMap_append, List.mem_append] at hmem
        rcases hmem with hmem | hmem
        · exact ⟨List.mem_cons_of_mem _ (hseen edge hmem).1, List.mem_cons_of_mem _ (hseen edge hmem).2⟩
        · exact hedges edge (by simpa using hmem)
      · simp only [List.flatMap_append, List.length_append, List.flatMap_singleton]
        omega

namespace Graph

theorem realised_spec (g : Graph ν) : Realised g.realised g.items := by
  have hinit : Realised (State.init : State ν) [] :=
    ⟨fun _ => rfl, fun _ => rfl, fun _ => rfl, fun _ => rfl, fun _ => rfl, rfl⟩
  refine hinit.foldl [] g.declared (fun edge h => absurd h (by simp)) ?_
  have hcount := g.count_lt
  simp only [List.flatMap_nil, List.length_nil]
  omega

end Graph

/-! ## The invariant -/

/-- The edges to a node from nodes that are not done. -/
def missing (g : Graph ν) (s : State ν) (node : ν) : ℕ :=
  g.edges.countP fun edge => edge.2 = node ∧ s.done edge.1 = false

/-- The state of the graph in a run, after the engines `ran` have been started. The counters still have
to be lowered for the edges to `rest`. -/
structure Tracks (g : Graph ν) (ran : List Engine) (s : State ν) (pending rest : List ν) : Prop where
  nodes : s.nodes = g.nodes
  outlist : s.outlist = targets g.edges
  wanted : ∀ node, s.wanted node = true ↔ ∃ engine ∈ ran, node ∈ g.nodes engine
  counts : ∀ node, s.unsatisfied node = missing g s node + rest.count node
  queue : ∀ node, node ∈ pending ↔ s.isReady node = true
  queue_nodup : pending.Nodup
  done : ∀ node, s.done node = true ↔ node ∈ s.activated
  done_wanted : ∀ node ∈ s.activated, s.wanted node = true
  once : s.activated.Nodup
  order : DependencyOrder g.Depends s.activated

omit [DecidableEq ν] in
theorem State.isMissing_iff {s : State ν} {node : ν} :
    s.isMissing node = true ↔ s.wanted node = true ∧ s.done node = false := by
  simp [State.isMissing]

omit [DecidableEq ν] in
theorem State.isReady_iff {s : State ν} {node : ν} :
    s.isReady node = true ↔
      s.wanted node = true ∧ s.done node = false ∧ s.unsatisfied node = 0 := by
  simp [State.isReady, State.isMissing, and_assoc]

namespace Tracks

variable {g : Graph ν} {ran : List Engine} {s : State ν} {pending rest : List ν} {current : ν}

/-- One edge: the counter is not zero, and the target is queued when it comes to zero. -/
theorem satisfy (h : Tracks g ran s pending (current :: rest)) :
    ∃ s' pending', State.satisfy (s, pending) current = .ok (s', pending') ∧
      Tracks g ran s' pending' rest ∧ s'.activated = s.activated := by
  have hcount := h.counts current
  rw [List.count_cons_self] at hcount
  have hne : s.unsatisfied current ≠ 0 := by omega
  refine ⟨_, _, if_neg hne, ?_, rfl⟩
  set s' : State ν :=
    { s with
      unsatisfied := Function.update s.unsatisfied current (s.unsatisfied current - 1) } with hs'
  -- a counter other than that of the target is as before
  have hother : ∀ node, node ≠ current → s'.isReady node = s.isReady node := by
    intro node hnode
    rw [State.isReady, State.isReady, hs']
    dsimp only
    rw [Function.update_of_ne hnode]
    rfl
  have hnot : current ∉ pending := by
    rw [h.queue, State.isReady_iff]
    exact fun hready => hne hready.2.2
  refine ⟨h.nodes, h.outlist, h.wanted, ?_, ?_, ?_, h.done, h.done_wanted, h.once, h.order⟩
  · intro node
    by_cases hnode : node = current
    · rw [hnode, hs']
      dsimp only
      rw [Function.update_self, hcount]
      rfl
    · have hold := h.counts node
      rw [List.count_cons_of_ne (Ne.symm hnode)] at hold
      rw [hs']
      dsimp only
      rw [Function.update_of_ne hnode, hold]
      rfl
  · intro node
    by_cases hnode : node = current
    · rw [hnode]
      split
      · rename_i hready
        simp [hready]
      · rename_i hready
        simp [hready, hnot]
    · rw [hother node hnode, ← h.queue]
      split
      · simp [hnode]
      · rfl
  · split
    · exact List.nodup_append.mpr ⟨h.queue_nodup, List.nodup_singleton _, by
        intro a ha b hb hab
        rw [List.mem_singleton] at hb
        exact hnot (hb ▸ hab ▸ ha)⟩
    · exact h.queue_nodup

/-- All edges of a node. -/
theorem satisfyAll (h : Tracks g ran s pending rest) :
    ∃ q, rest.foldlM State.satisfy (s, pending) = .ok q ∧
      Tracks g ran q.1 q.2 [] ∧ q.1.activated = s.activated := by
  induction rest generalizing s pending with
  | nil => exact ⟨(s, pending), rfl, h, rfl⟩
  | cons current rest ih =>
      obtain ⟨s', pending', hstep, h', hactivated⟩ := h.satisfy
      obtain ⟨q, hrest, hq, hqa⟩ := ih h'
      refine ⟨q, ?_, hq, hqa.trans hactivated⟩
      rw [List.foldlM_cons, hstep]
      exact hrest

/-- A node that is not done has an edge from a node that is not done, unless it is queued. -/
theorem exists_missing (h : Tracks g ran s pending []) {node : ν} (hmissing : s.isMissing node = true)
    (hqueue : node ∉ pending) : ∃ source, g.Depends source node ∧ source ∉ s.activated := by
  rw [State.isMissing_iff] at hmissing
  have hcount := h.counts node
  have hne : missing g s node ≠ 0 := by
    intro hzero
    rw [h.queue, State.isReady_iff] at hqueue
    exact hqueue ⟨hmissing.1, hmissing.2, by rw [hcount, hzero]; rfl⟩
  obtain ⟨edge, hedge, htarget⟩ := List.countP_pos_iff.mp (Nat.pos_of_ne_zero hne)
  obtain ⟨rfl, hsource⟩ := of_decide_eq_true htarget
  refine ⟨edge.1, hedge, fun hmem => ?_⟩
  rw [(h.done edge.1).mpr hmem] at hsource
  cases hsource

/-- A queued node comes after all that it depends on. -/
theorem sources_done (h : Tracks g ran s (current :: pending) []) {source : ν}
    (hsource : g.Depends source current) : source ∈ s.activated := by
  have hready := (h.queue current).mp (List.mem_cons_self ..)
  rw [State.isReady_iff] at hready
  have hzero : missing g s current = 0 := by
    have hcount := h.counts current
    rw [hready.2.2] at hcount
    exact (Nat.add_eq_zero_iff.mp hcount.symm).1
  rw [← h.done]
  by_contra hnot
  refine List.countP_eq_zero.mp hzero _ hsource (decide_eq_true ⟨rfl, ?_⟩)
  exact Bool.eq_false_iff.mpr hnot

end Tracks

/-- The edges from a node count no more once it is done. -/
theorem missing_activate (edges : List (ν × ν)) (done : ν → Bool) {current : ν}
    (hcurrent : done current = false) (node : ν) :
    (edges.countP fun edge => edge.2 = node ∧ done edge.1 = false) =
      (edges.countP fun edge => edge.2 = node ∧ Function.update done current true edge.1 = false) +
        (targets edges current).count node := by
  induction edges with
  | nil => rfl
  | cons edge edges ih =>
      obtain ⟨source, target⟩ := edge
      simp only [List.countP_cons, targets, List.filter_cons] at ih ⊢
      by_cases hsource : source = current
      · subst hsource
        simp only [hcurrent, Function.update_self, decide_true, if_true, List.map_cons,
          List.count_cons, ih]
        by_cases htarget : target = node
        · simp [htarget]
          omega
        · simp [htarget]
      · simp only [Function.update_of_ne hsource, hsource, decide_false, ih]
        simp only [Bool.false_eq_true, if_false]
        omega

namespace Tracks

variable {g : Graph ν} {ran : List Engine} {s : State ν} {pending rest : List ν} {current : ν}

/-- The first node of the queue is activated. -/
theorem activate (h : Tracks g ran s (current :: pending) []) :
    s.isMissing current = true ∧ Tracks g ran (s.activate current) pending (targets g.edges current) := by
  have hready := (h.queue current).mp (List.mem_cons_self ..)
  rw [State.isReady_iff] at hready
  obtain ⟨hwanted, hdone, hzero⟩ := hready
  have hnew : current ∉ s.activated := by
    rw [← h.done, hdone]
    exact Bool.false_ne_true
  obtain ⟨hnot, hnodup⟩ := List.nodup_cons.mp h.queue_nodup
  refine ⟨State.isMissing_iff.mpr ⟨hwanted, hdone⟩,
    h.nodes, h.outlist, h.wanted, ?_, ?_, hnodup, ?_, ?_, ?_, ?_⟩
  · intro node
    have hcount := h.counts node
    rw [List.count_nil, Nat.add_zero, missing, missing_activate g.edges s.done hdone] at hcount
    exact hcount
  · intro node
    rw [State.isReady_iff]
    by_cases hnode : node = current
    · subst hnode
      refine ⟨fun hmem => absurd hmem hnot, fun hready' => ?_⟩
      rw [State.activate] at hready'
      simp at hready'
    · have hold := h.queue node
      rw [List.mem_cons, or_iff_right hnode, State.isReady_iff] at hold
      rw [hold, State.activate]
      dsimp only
      rw [Function.update_of_ne hnode]
  · intro node
    rw [State.activate]
    dsimp only
    rw [List.mem_append, List.mem_singleton]
    by_cases hnode : node = current
    · simp [hnode]
    · rw [Function.update_of_ne hnode, h.done, or_iff_left hnode]
  · intro node hmem
    rcases List.mem_append.mp hmem with hmem | hmem
    · exact h.done_wanted node hmem
    · rw [List.mem_singleton] at hmem
      rw [hmem]
      exact hwanted
  · refine List.nodup_append.mpr ⟨h.once, List.nodup_singleton _, fun a ha b hb hab => ?_⟩
    rw [List.mem_singleton] at hb
    exact hnew (hb ▸ hab ▸ ha)
  · exact h.order.concat fun source hsource => h.sources_done hsource

/-- The activated nodes are nodes of the graph. -/
theorem length_activated (h : Tracks g ran s pending rest) : s.activated.length ≤ g.items.length := by
  have hsub : s.activated ⊆ g.items.map Item.node := by
    intro node hmem
    obtain ⟨engine, -, hnode⟩ := (h.wanted node).mp (h.done_wanted node hmem)
    exact Graph.mem_map_node.mpr ⟨engine, hnode⟩
  simpa using (h.once.subperm hsub).length_le

/-- The loop ends with an empty queue, and no check fails. -/
theorem drain (h : Tracks g ran s pending []) {left : ℕ}
    (hleft : g.items.length ≤ s.activated.length + left) :
    ∃ s', (∀ fuel, left < fuel → State.drain fuel s pending = .ok s') ∧ Tracks g ran s' [] [] := by
  induction left generalizing s pending with
  | zero =>
      cases pending with
      | nil =>
          refine ⟨s, fun fuel hfuel => ?_, h⟩
          obtain ⟨fuel, rfl⟩ := Nat.exists_eq_add_of_lt hfuel
          rfl
      | cons current pending =>
          -- all nodes are activated already
          have hle := h.activate.2.length_activated
          rw [State.activate, List.length_append, List.length_singleton] at hle
          omega
  | succ left ih =>
      cases pending with
      | nil =>
          refine ⟨s, fun fuel hfuel => ?_, h⟩
          obtain ⟨fuel, rfl⟩ := Nat.exists_eq_add_of_lt hfuel
          rfl
      | cons current pending =>
          obtain ⟨hmissing, hactivated⟩ := h.activate
          obtain ⟨q, hfold, hq, hlength⟩ := hactivated.satisfyAll
          obtain ⟨s', hrun, hs'⟩ := ih hq (by
            rw [hlength, State.activate, List.length_append, List.length_singleton]
            omega)
          refine ⟨s', fun fuel hfuel => ?_, hs'⟩
          obtain ⟨fuel, rfl⟩ := Nat.exists_eq_add_of_lt hfuel
          rw [State.drain, if_neg (by simp [hmissing]), h.outlist, hfold]
          exact hrun _ (by omega)

end Tracks

/-! ## The runs of the two engines -/

/-- How a run of an engine ends: every node was activated at most once and after all that it depends on,
and the panic is reached if a node of the engine is on or behind a cycle or behind an excluded node. -/
structure Ends (g : Graph ν) (engine : Engine) (excluded : ν → Prop) (s : State ν) (panics : Bool) :
    Prop where
  once : s.activated.Nodup
  order : DependencyOrder g.Depends s.activated
  panics_iff : panics = true ↔ ∃ node ∈ g.nodes engine, Behind g.Depends excluded node

/-- Between the runs the queue is empty. -/
theorem Tracks.want {g : Graph ν} {ran : List Engine} {s : State ν} (h : Tracks g ran s [] [])
    (engine : Engine) :
    Tracks g (engine :: ran) (s.want engine)
      (((s.want engine).nodes engine).filter (s.want engine).isReady) [] := by
  have hwanted : ∀ node, (s.want engine).wanted node = true ↔
      node ∈ g.nodes engine ∨ s.wanted node = true := by
    intro node
    rw [State.want, h.nodes]
    simp
  refine ⟨h.nodes, h.outlist, ?_, h.counts, ?_, ?_, h.done, ?_, h.once, h.order⟩
  · intro node
    rw [hwanted, h.wanted]
    simp
  · intro node
    rw [List.mem_filter, and_iff_right_iff_imp]
    intro hready
    -- a ready node of an engine that ran before would be queued already
    rw [State.isReady_iff, hwanted] at hready
    rcases hready.1 with hmem | hold
    · change node ∈ s.nodes engine
      rwa [h.nodes]
    · have hmem := (h.queue node).mpr (State.isReady_iff.mpr ⟨hold, hready.2⟩)
      cases hmem
  · refine List.Nodup.filter _ ?_
    change (s.nodes engine).Nodup
    rw [h.nodes]
    exact g.nodup_nodes engine
  · intro node hmem
    exact (hwanted node).mpr (Or.inr (h.done_wanted node hmem))

/-- With an empty queue, a node is missing if it is on or behind a cycle or behind a node of an engine
that was not run. -/
theorem Tracks.notMem_iff {g : Graph ν} {ran : List Engine} {s : State ν} (h : Tracks g ran s [] [])
    {node : ν} {engine : Engine} (hnode : node ∈ g.nodes engine) :
    node ∉ s.activated ↔ Behind g.Depends (fun n => ∃ e, e ∉ ran ∧ n ∈ g.nodes e) node := by
  refine h.order.notMem_iff (s := {n | n ∈ g.items.map Item.node}) (List.finite_toSet _) ?_ ?_
    (Graph.mem_map_node.mpr ⟨engine, hnode⟩)
  · rintro n ⟨e, hnot, hn⟩ hmem
    obtain ⟨e', hran, hn'⟩ := (h.wanted n).mp (h.done_wanted n hmem)
    exact hnot (Graph.engine_unique hn hn' ▸ hran)
  · intro n hn hout hran
    obtain ⟨e, he⟩ := Graph.mem_map_node.mp hn
    have hwanted : s.wanted n = true := by
      rw [h.wanted]
      refine ⟨e, ?_, he⟩
      by_contra hnot
      exact hran ⟨e, hnot, he⟩
    have hdone : s.done n = false := by
      rw [← h.done] at hout
      exact Bool.eq_false_iff.mpr hout
    obtain ⟨source, hsource, hmissing⟩ :=
      h.exists_missing (State.isMissing_iff.mpr ⟨hwanted, hdone⟩) (List.not_mem_nil)
    exact ⟨source, Graph.source_mem hsource, hmissing, hsource⟩

/-- A run of an engine. -/
theorem Tracks.run {g : Graph ν} {ran : List Engine} {s : State ν} (h : Tracks g ran s [] [])
    (engine : Engine) :
    ∃ s' panics, Returns (s.run engine) (s', panics) ∧ Tracks g (engine :: ran) s' [] [] ∧
      Ends g engine (fun n => ∃ e, e ∉ engine :: ran ∧ n ∈ g.nodes e) s' panics := by
  obtain ⟨s', hdrain, hs'⟩ := (h.want engine).drain (Nat.le_add_left g.items.length _)
  refine ⟨s', (s'.nodes engine).countP s'.isMissing % 2 ^ 32 != 0,
    ⟨g.items.length + 1, fun fuel hfuel => ?_⟩, hs', hs'.once, hs'.order, ?_⟩
  · rw [State.run, hdrain fuel hfuel]
    rfl
  · have hlt : (s'.nodes engine).countP s'.isMissing < 2 ^ 32 := by
      have hle := List.countP_le_length (p := s'.isMissing) (l := s'.nodes engine)
      have hlength : (s'.nodes engine).length ≤ g.items.length := by
        rw [hs'.nodes, Graph.nodes, List.length_map]
        exact List.length_filter_le _ _
      have hcount := g.count_lt
      omega
    rw [bne_iff_ne, Nat.mod_eq_of_lt hlt, ← Nat.pos_iff_ne_zero, List.countP_pos_iff, hs'.nodes]
    refine exists_congr fun node => and_congr_right fun hnode => ?_
    rw [← hs'.notMem_iff hnode, ← hs'.done, State.isMissing_iff, Bool.not_eq_true,
      and_iff_right_iff_imp]
    exact fun _ => (hs'.wanted node).mpr ⟨engine, List.mem_cons_self .., hnode⟩

theorem Graph.tracks_realised (g : Graph ν) : Tracks g [] g.realised [] [] := by
  have h := g.realised_spec
  refine ⟨funext h.nodes, funext h.outlist, ?_, ?_, ?_, List.nodup_nil, ?_, ?_, ?_, ?_⟩
  · intro node
    simp [h.wanted node]
  · intro node
    rw [h.unsatisfied, missing]
    simp [h.done, Graph.edges]
  · intro node
    simp [State.isReady_iff, h.wanted node]
  · intro node
    simp [h.done node, h.activated]
  · intro node hmem
    rw [h.activated] at hmem
    cases hmem
  · rw [h.activated]
    exact List.nodup_nil
  · rw [h.activated]
    exact DependencyOrder.nil

/-- The runs of the two engines, `presched` first. No check fails in either, and `postsched` is run if
`presched` did not panic. A node of `presched` is not reached if it is on or behind a cycle or depends on
a node of `postsched`, and a node of `postsched` is not reached if it is on or behind a cycle. -/
theorem boot_order (g : Graph ν) :
    ∃ s panics, Returns (g.realised.run .presched) (s, panics) ∧
      Ends g .presched (fun node => node ∈ g.nodes .postsched) s panics ∧
      (panics = false → ∃ s' panics', Returns (s.run .postsched) (s', panics') ∧
        Ends g .postsched (fun _ => False) s' panics') := by
  obtain ⟨s, panics, hrun, htracks, hends⟩ := g.tracks_realised.run .presched
  refine ⟨s, panics, hrun, ?_, fun _ => ?_⟩
  · convert hends using 2 with node
    refine ⟨fun hnode => ⟨.postsched, by decide, hnode⟩, ?_⟩
    rintro ⟨engine, hnot, hnode⟩
    cases engine with
    | presched => exact absurd (List.mem_cons_self ..) hnot
    | postsched => exact hnode
  · obtain ⟨s', panics', hrun', -, hends'⟩ := htracks.run .postsched
    refine ⟨s', panics', hrun', ?_⟩
    convert hends' using 2 with node
    refine ⟨False.elim, ?_⟩
    rintro ⟨engine, hnot, -⟩
    cases engine with
    | presched => exact hnot (by decide)
    | postsched => exact hnot (by decide)

-- a task that requires and entails the same stage is on a cycle, and nothing is activated
example : (([.stage 0 .presched, .task 1 .presched [0] [0]].foldl State.realise State.init).run
    .presched 3).map (fun q => (q.1.activated, q.2)) = .ok ([], true) := by
  rfl

end Ilobilix.Initgraph
