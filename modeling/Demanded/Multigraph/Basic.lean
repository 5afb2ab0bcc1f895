import Demanded.OrdMap

/-!
# Labelled multigraphs

A directed graph whose edges carry labels and may be parallel.  Three orders of a graph show in
answers, and each is a field of the type:

* `nodes` has the nodes in the order in which they were added;
* `edges` has the edges in the order in which they were added, and an edge that is redirected keeps
  its place;
* `recent` has the same edges, the one placed last first.  The edges at a node are listed in this
  order, and an edge that is redirected counts as placed anew.

The type also carries what every operation keeps: a node stands once, `recent` rearranges `edges`,
and the ends of every edge are nodes.
-/

namespace Demanded

universe u v w

/-- An edge with its label. -/
structure Edge (N : Type u) (E : Type v) where
  src : N
  dst : N
  label : E

/-- A directed multigraph with labelled edges. -/
structure Multigraph (N : Type u) (E : Type v) where
  /-- The nodes, in the order in which they were added. -/
  nodes : List N
  /-- The edges, in the order in which they were added. -/
  edges : List (Edge N E)
  /-- The edges, the one placed last first. -/
  recent : List (Edge N E)
  /-- A node stands once. -/
  nodup : nodes.Nodup
  /-- Both lists of edges have the same members. -/
  perm : recent.Perm edges
  /-- An edge leaves from a node. -/
  src_mem : ∀ e ∈ edges, e.src ∈ nodes
  /-- An edge leads to a node. -/
  dst_mem : ∀ e ∈ edges, e.dst ∈ nodes

namespace Multigraph

variable {N : Type u} {E : Type v}

/-! ## Construction -/

/-- The graph without nodes. -/
def empty : Multigraph N E where
  nodes := []
  edges := []
  recent := []
  nodup := List.Pairwise.nil
  perm := List.Perm.nil
  src_mem := fun _ h => nomatch h
  dst_mem := fun _ h => nomatch h

variable [DecidableEq N]

/-- Whether a node is there. -/
def contains (g : Multigraph N E) (n : N) : Bool := decide (n ∈ g.nodes)

/-- Adds a node, unless it is there. -/
def addNode (g : Multigraph N E) (n : N) : Multigraph N E :=
  if h : n ∈ g.nodes then g
  else
    { g with
      nodes := g.nodes ++ [n]
      nodup := by
        refine List.nodup_append.2 ⟨g.nodup, List.pairwise_singleton _ _, ?_⟩
        intro a ha b hb hab
        rw [List.mem_singleton.1 hb] at hab
        exact h (hab ▸ ha)
      src_mem := fun e he => List.mem_append_left _ (g.src_mem e he)
      dst_mem := fun e he => List.mem_append_left _ (g.dst_mem e he) }

theorem mem_nodes_addNode {g : Multigraph N E} {n x : N} :
    x ∈ (g.addNode n).nodes ↔ x ∈ g.nodes ∨ x = n := by
  unfold addNode
  split
  · rename_i h
    exact ⟨.inl, fun hx => hx.elim id fun he => he ▸ h⟩
  · simp

@[simp]
theorem edges_addNode (g : Multigraph N E) (n : N) : (g.addNode n).edges = g.edges := by
  unfold addNode
  split <;> rfl

@[simp]
theorem recent_addNode (g : Multigraph N E) (n : N) : (g.addNode n).recent = g.recent := by
  unfold addNode
  split <;> rfl

/-- Adds an edge, and before it those of its ends that are missing. -/
def addEdge (g : Multigraph N E) (src dst : N) (label : E) : Multigraph N E :=
  let g' := (g.addNode src).addNode dst
  { nodes := g'.nodes
    edges := g.edges ++ [⟨src, dst, label⟩]
    recent := ⟨src, dst, label⟩ :: g.recent
    nodup := g'.nodup
    perm := (g.perm.cons _).trans (List.perm_append_singleton _ _).symm
    src_mem := by
      intro e he
      rcases List.mem_append.1 he with he | he
      · exact mem_nodes_addNode.2 (.inl (mem_nodes_addNode.2 (.inl (g.src_mem e he))))
      · rw [List.mem_singleton.1 he]
        exact mem_nodes_addNode.2 (.inl (mem_nodes_addNode.2 (.inr rfl)))
    dst_mem := by
      intro e he
      rcases List.mem_append.1 he with he | he
      · exact mem_nodes_addNode.2 (.inl (mem_nodes_addNode.2 (.inl (g.dst_mem e he))))
      · rw [List.mem_singleton.1 he]
        exact mem_nodes_addNode.2 (.inr rfl) }

/-! ## Redirection -/

omit [DecidableEq N] in
/-- Taking some members of a list to its front and changing them there is, up to order, changing
them in place. -/
theorem perm_moved {α : Type w} (p : α → Bool) (f : α → α) (l : List α) :
    ((l.filter p).reverse.map f ++ l.filter fun a => !p a).Perm
      (l.map fun a => if p a then f a else a) := by
  refine (((List.reverse_perm _).map f).append_right _).trans ?_
  induction l with
  | nil => exact List.Perm.nil
  | cons a rest ih =>
    cases h : p a with
    | true => simpa [h] using ih
    | false => simpa [h] using List.perm_middle.trans (ih.cons a)

/-- Changes the ends of the edges that pass a test.  They keep their places among `edges` and come
to the front of `recent`, the last of them first. -/
def move (g : Multigraph N E) (picked : Edge N E → Bool) (f : Edge N E → Edge N E)
    (h : ∀ e ∈ g.edges, picked e → (f e).src ∈ g.nodes ∧ (f e).dst ∈ g.nodes) :
    Multigraph N E :=
  { g with
    edges := g.edges.map fun e => if picked e then f e else e
    recent := (g.recent.filter picked).reverse.map f ++ g.recent.filter fun e => !picked e
    perm := (perm_moved picked f g.recent).trans (g.perm.map _)
    src_mem := by
      intro e he
      obtain ⟨e₀, he₀, rfl⟩ := List.mem_map.1 he
      split
      · rename_i hp
        exact (h e₀ he₀ hp).1
      · exact g.src_mem e₀ he₀
    dst_mem := by
      intro e he
      obtain ⟨e₀, he₀, rfl⟩ := List.mem_map.1 he
      split
      · rename_i hp
        exact (h e₀ he₀ hp).2
      · exact g.dst_mem e₀ he₀ }

/-- Lets the edges into `node` whose source passes a test lead to `target`. -/
def redirectIn (g : Multigraph N E) (node target : N) (keep : N → Bool) : Multigraph N E :=
  if node ∈ g.nodes then
    (g.addNode target).move (fun e => decide (e.dst = node) && keep e.src)
      (fun e => { e with dst := target })
      fun e he _ => ⟨(g.addNode target).src_mem e he, mem_nodes_addNode.2 (.inr rfl)⟩
  else g

/-- Lets the edges out of `node` leave from `origin`. -/
def redirectOut (g : Multigraph N E) (node origin : N) : Multigraph N E :=
  if node ∈ g.nodes then
    (g.addNode origin).move (fun e => decide (e.src = node)) (fun e => { e with src := origin })
      fun e he _ => ⟨mem_nodes_addNode.2 (.inr rfl), (g.addNode origin).dst_mem e he⟩
  else g

/-! ## Navigation -/

/-- The edges that leave from a node, the one placed last first. -/
def outEdges (g : Multigraph N E) (n : N) : List (Edge N E) :=
  g.recent.filter fun e => decide (e.src = n)

/-- The edges that lead to a node, the one placed last first. -/
def inEdges (g : Multigraph N E) (n : N) : List (Edge N E) :=
  g.recent.filter fun e => decide (e.dst = n)

/-- The ends of the edges that leave from a node, one for each edge. -/
def successors (g : Multigraph N E) (n : N) : List N := (g.outEdges n).map Edge.dst

/-- The sources of the edges that lead to a node, one for each edge. -/
def predecessors (g : Multigraph N E) (n : N) : List N := (g.inEdges n).map Edge.src

theorem mem_successors {g : Multigraph N E} {n x : N} :
    x ∈ g.successors n ↔ ∃ e ∈ g.edges, e.src = n ∧ e.dst = x := by
  simp only [successors, outEdges, List.mem_map, List.mem_filter, decide_eq_true_eq,
    g.perm.mem_iff, and_assoc]

theorem mem_predecessors {g : Multigraph N E} {n x : N} :
    x ∈ g.predecessors n ↔ ∃ e ∈ g.edges, e.dst = n ∧ e.src = x := by
  simp only [predecessors, inEdges, List.mem_map, List.mem_filter, decide_eq_true_eq,
    g.perm.mem_iff, and_assoc]

/-! ## Nodes in order, and sub-graphs -/

variable [Ord N] [Std.TransOrd N] [Std.LawfulEqOrd N]

/-- The nodes in ascending order. -/
def sortedNodes (g : Multigraph N E) : List N := (OrdSet.ofList g.nodes).toList

omit [DecidableEq N] in
theorem mem_sortedNodes {g : Multigraph N E} {n : N} : n ∈ g.sortedNodes ↔ n ∈ g.nodes :=
  OrdSet.mem_ofList

/-- The sub-graph of the nodes that pass a test: these nodes in ascending order, and the edges
between them in the order of the graph. -/
def restrict (g : Multigraph N E) (keep : N → Bool) : Multigraph N E where
  nodes := g.sortedNodes.filter keep
  edges := g.edges.filter fun e => keep e.src && keep e.dst
  recent := (g.edges.filter fun e => keep e.src && keep e.dst).reverse
  nodup := (OrdSet.nodup_toList _).filter _
  perm := List.reverse_perm _
  src_mem := by
    intro e he
    obtain ⟨hmem, hkeep⟩ := List.mem_filter.1 he
    rw [Bool.and_eq_true] at hkeep
    exact List.mem_filter.2 ⟨mem_sortedNodes.2 (g.src_mem e hmem), hkeep.1⟩
  dst_mem := by
    intro e he
    obtain ⟨hmem, hkeep⟩ := List.mem_filter.1 he
    rw [Bool.and_eq_true] at hkeep
    exact List.mem_filter.2 ⟨mem_sortedNodes.2 (g.dst_mem e hmem), hkeep.2⟩

end Multigraph

end Demanded
