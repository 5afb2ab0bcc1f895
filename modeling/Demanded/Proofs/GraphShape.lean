import Demanded.DemandGraph.Basic
import Demanded.Proofs.StatementOrder

/-!
# The shape of a demanded graph

The demanded graph of a program mirrors its flow graph (`DemandGraph.Mirrors`): it has one node for
the state at each location and one for each statement, and each statement stands between the states
at its ends.  The statements between two locations are numbered from zero in the order of
statements.

Which statement has which name depends only on how often each edge is there.  The numbering sorts,
and the order of statements is total, so two flow graphs whose edges were added in different orders
name their statements alike (`FlowGraph.parallel_eq_of_perm`).
-/

namespace Demanded

/-! ## Lists that are grouped by a key -/

section Grouping

variable {α β κ : Type}

/-- If only one member of a list contributes, the result is what it contributes. -/
theorem flatMap_eq_of_nodup {l : List α} {a : α} {g : α → List β} (hl : l.Nodup) (ha : a ∈ l)
    (hg : ∀ x, x ≠ a → g x = []) : l.flatMap g = g a := by
  obtain ⟨s, t, rfl⟩ := List.append_of_mem ha
  obtain ⟨-, hcons, hst⟩ := List.nodup_append.1 hl
  have hs : s.flatMap g = [] :=
    List.flatMap_eq_nil_iff.2 fun x hx => hg x (hst x hx a List.mem_cons_self)
  have ht : t.flatMap g = [] :=
    List.flatMap_eq_nil_iff.2 fun x hx => hg x fun hxa => (List.nodup_cons.1 hcons).1 (hxa ▸ hx)
  rw [List.flatMap_append, List.flatMap_cons, hs, ht, List.nil_append, List.append_nil]

/-- Grouping a list by a key loses nothing and repeats nothing. -/
theorem perm_flatMap_filter [DecidableEq κ] (key : α → κ) {keys : List κ} (hkeys : keys.Nodup)
    {l : List α} (hl : ∀ a ∈ l, key a ∈ keys) :
    (keys.flatMap fun k => l.filter fun a => decide (key a = k)).Perm l := by
  induction keys generalizing l with
  | nil =>
    rw [List.eq_nil_iff_forall_not_mem.2 fun a ha => List.not_mem_nil (hl a ha)]
    rfl
  | cons k rest ih =>
    obtain ⟨hk, hrest⟩ := List.nodup_cons.1 hkeys
    -- the groups of the other keys are groups of what is left without the first one
    have hothers : (rest.flatMap fun k' => l.filter fun a => decide (key a = k')) =
        rest.flatMap fun k' =>
          (l.filter fun a => !decide (key a = k)).filter fun a => decide (key a = k') := by
      refine List.flatMap_congr fun k' hk' => ?_
      rw [List.filter_filter]
      refine List.filter_congr fun a _ => ?_
      by_cases ha : key a = k'
      · have hne : k' ≠ k := fun he => hk (he ▸ hk')
        simp [ha, hne]
      · simp [ha]
    rw [List.flatMap_cons, hothers]
    refine ((ih hrest fun a ha => ?_).append_left _).trans (List.filter_append_perm _ l)
    obtain ⟨ha, hne⟩ := List.mem_filter.1 ha
    exact (List.mem_cons.1 (hl a ha)).resolve_left (by simpa using hne)

end Grouping

/-! ## Statements between two locations -/

/-- An edge with its rank among those between the same two locations. -/
structure RankedEdge extends Edge Loc Stmt where
  /-- The rank. -/
  rank : Nat

namespace RankedEdge

/-- The name of the statement. -/
def name (x : RankedEdge) : NodeName := .stmt x.src x.dst x.rank

/-- The name and the statement. -/
def named (x : RankedEdge) : NodeName × Stmt := (x.name, x.label)

theorem named_injective : Function.Injective named := by
  rintro ⟨⟨src, dst, stmt⟩, rank⟩ ⟨⟨src', dst', stmt'⟩, rank'⟩ h
  simp only [named, name, Prod.mk.injEq, NodeName.stmt.injEq] at h
  obtain ⟨⟨rfl, rfl, rfl⟩, rfl⟩ := h
  rfl

end RankedEdge

namespace FlowGraph

variable {f : FlowGraph}

/-- The statements between two locations, in the order in which they were added. -/
def between (f : FlowGraph) (src dst : Loc) : List Stmt :=
  (f.edges.filter fun e => decide (e.src = src ∧ e.dst = dst)).map Edge.label

theorem perm_parallel (f : FlowGraph) (src dst : Loc) :
    (f.parallel src dst).Perm (f.between src dst) :=
  perm_sortBy _ _

theorem pairwise_parallel (f : FlowGraph) (src dst : Loc) :
    (f.parallel src dst).Pairwise fun a b => (Stmt.compare a b).isLE :=
  pairwise_sortBy _

theorem parallel_eq_of_perm {f' : FlowGraph} (h : f.edges.Perm f'.edges) (src dst : Loc) :
    f'.parallel src dst = f.parallel src dst :=
  sortBy_eq_of_perm ((h.symm.filter _).map _)

theorem mem_connected_of_mem_parallel {src dst : Loc} {stmt : Stmt}
    (h : stmt ∈ f.parallel src dst) : (src, dst) ∈ f.connected := by
  obtain ⟨e, he, hsrc, hdst, -⟩ := mem_parallel.1 h
  exact mem_connected.2 ⟨e, he, hsrc, hdst⟩

/-- The statements between locations with their ranks, in the order of names. -/
def rankedEdges (f : FlowGraph) : List RankedEdge :=
  f.connected.flatMap fun pair =>
    (f.parallel pair.1 pair.2).mapIdx fun rank stmt => ⟨⟨pair.1, pair.2, stmt⟩, rank⟩

theorem namedStmts_eq_map (f : FlowGraph) : f.namedStmts = f.rankedEdges.map RankedEdge.named := by
  rw [namedStmts, rankedEdges, List.map_flatMap]
  refine List.flatMap_congr fun pair _ => ?_
  exact List.ext_getElem (by simp) fun i h h' => by simp [RankedEdge.named, RankedEdge.name]

theorem map_between (f : FlowGraph) (src dst : Loc) :
    ((f.between src dst).map fun stmt => (⟨src, dst, stmt⟩ : Edge Loc Stmt)) =
      f.edges.filter fun e => decide ((e.src, e.dst) = (src, dst)) := by
  rw [between, List.map_map]
  simp only [Prod.mk.injEq]
  refine (List.map_congr_left fun e he => ?_).trans (List.map_id _)
  obtain ⟨-, rfl, rfl⟩ : e ∈ f.edges ∧ e.src = src ∧ e.dst = dst := by simpa using he
  rfl

/-- Every edge has one rank. -/
theorem perm_rankedEdges (f : FlowGraph) :
    (f.rankedEdges.map RankedEdge.toEdge).Perm f.edges := by
  have hkeys : ∀ e ∈ f.edges, (e.src, e.dst) ∈ f.connected :=
    fun e he => mem_connected.2 ⟨e, he, rfl, rfl⟩
  refine List.Perm.trans ?_
    (perm_flatMap_filter (fun e : Edge Loc Stmt => (e.src, e.dst)) (nodup_connected f) hkeys)
  rw [rankedEdges, List.map_flatMap]
  refine List.Perm.flatMap_left _ fun pair _ => ?_
  have hforget : ((f.parallel pair.1 pair.2).mapIdx fun rank stmt =>
      (⟨⟨pair.1, pair.2, stmt⟩, rank⟩ : RankedEdge)).map RankedEdge.toEdge =
      (f.parallel pair.1 pair.2).map fun stmt => ⟨pair.1, pair.2, stmt⟩ :=
    List.ext_getElem (by simp) fun i h h' => by simp
  rw [hforget, ← map_between]
  exact (f.perm_parallel pair.1 pair.2).map _

/-- Every edge has its name. -/
theorem length_namedStmts (f : FlowGraph) : f.namedStmts.length = f.numEdges := by
  rw [namedStmts_eq_map, List.length_map, ← List.length_map RankedEdge.toEdge,
    (perm_rankedEdges f).length_eq]
  rfl

end FlowGraph

/-! ## Nodes and their neighbours -/

namespace Skeleton

variable {f : FlowGraph} {src dst loc : Loc} {rank : Nat} {name : NodeName}

theorem get?_stmts (f : FlowGraph) (src dst : Loc) (rank : Nat) :
    (ofFlow f).stmts.get? (.stmt src dst rank) = (f.parallel src dst)[rank]? := by
  refine Option.ext fun stmt => ?_
  have hget : (ofFlow f).stmts.get? (.stmt src dst rank) = some stmt ↔
      (.stmt src dst rank, stmt) ∈ f.namedStmts :=
    OrdMap.get?_ofList_eq_some_iff (FlowGraph.nodup_names f)
  rw [hget, FlowGraph.mem_namedStmts]
  constructor
  · rintro ⟨src', dst', rank', -, hname, hstmt⟩
    cases hname
    exact hstmt
  · intro h
    exact ⟨src, dst, rank, FlowGraph.mem_connected_of_mem_parallel (List.mem_of_getElem? h), rfl, h⟩

theorem get?_stmts_state (f : FlowGraph) (loc : Loc) :
    (ofFlow f).stmts.get? (.state loc) = none := by
  refine OrdMap.get?_ofList_of_notMem fun hmem => ?_
  obtain ⟨⟨name, stmt⟩, hnamed, hname⟩ := List.mem_map.1 hmem
  obtain ⟨src, dst, rank, -, rfl, -⟩ := FlowGraph.mem_namedStmts.1 hnamed
  cases hname

theorem stmt_mem_nodes_iff :
    .stmt src dst rank ∈ (ofFlow f).graph.nodes ↔ rank < (f.between src dst).length := by
  rw [stmt_mem_nodes, get?_stmts, ← (FlowGraph.perm_parallel f src dst).length_eq]
  constructor
  · rintro ⟨stmt, hstmt⟩
    exact (List.getElem?_eq_some_iff.1 hstmt).1
  · exact fun h => ⟨_, List.getElem?_eq_getElem h⟩

theorem mem_names :
    name ∈ f.namedStmts.map Prod.fst ↔
      ∃ src dst rank, name = .stmt src dst rank ∧ name ∈ (ofFlow f).graph.nodes := by
  constructor
  · intro hmem
    obtain ⟨⟨name, stmt⟩, hnamed, rfl⟩ := List.mem_map.1 hmem
    obtain ⟨src, dst, rank, -, rfl, -⟩ := FlowGraph.mem_namedStmts.1 hnamed
    exact ⟨src, dst, rank, rfl, mem_nodes_ofFlow.2 (.inr ⟨_, hnamed, by simp [nodesOf]⟩)⟩
  · rintro ⟨src, dst, rank, rfl, hmem⟩
    obtain ⟨stmt, hget⟩ := stmt_mem_nodes.1 hmem
    exact List.mem_map.2
      ⟨_, (OrdMap.get?_ofList_eq_some_iff (FlowGraph.nodup_names f)).1 hget, rfl⟩

/-- A skeleton has the states at the locations, the named statements, and no other node. -/
theorem perm_nodes (f : FlowGraph) :
    (ofFlow f).graph.nodes.Perm
      (f.graph.nodes.map NodeName.state ++ f.namedStmts.map Prod.fst) := by
  refine (List.perm_ext_iff_of_nodup (ofFlow f).graph.nodup ?_).2 fun name => ?_
  · refine List.nodup_append.2 ⟨?_, FlowGraph.nodup_names f, ?_⟩
    · exact f.graph.nodup.map fun _ _ => NodeName.state.inj
    · rintro _ hstate name hname rfl
      obtain ⟨loc, -, rfl⟩ := List.mem_map.1 hstate
      obtain ⟨src, dst, rank, he, -⟩ := mem_names.1 hname
      cases he
  · rw [List.mem_append, mem_names, List.mem_map]
    cases name with
    | state loc => simp [state_mem_nodes]
    | stmt src dst rank => simp

theorem length_nodes (f : FlowGraph) :
    (ofFlow f).graph.nodes.length = f.numLocs + f.numEdges := by
  rw [(perm_nodes f).length_eq, List.length_append, List.length_map, List.length_map,
    FlowGraph.length_namedStmts, FlowGraph.numLocs]

/-- Edges that only one statement can have are those that it has. -/
theorem filter_recent_stmt (h : .stmt src dst rank ∈ (ofFlow f).graph.nodes)
    {p : Edge NodeName Dependency → Bool}
    (hp : ∀ name, name ≠ .stmt src dst rank → (stmtEdges name).filter p = []) :
    (ofFlow f).graph.recent.filter p = (stmtEdges (.stmt src dst rank)).filter p := by
  rw [recent_ofFlow, List.filter_flatMap]
  exact flatMap_eq_of_nodup (List.nodup_reverse.2 (FlowGraph.nodup_names f))
    (List.mem_reverse.2 (mem_names.2 ⟨src, dst, rank, rfl, h⟩)) hp

theorem predecessors_stmt (h : .stmt src dst rank ∈ (ofFlow f).graph.nodes) :
    (ofFlow f).graph.predecessors (.stmt src dst rank) = [.state src] := by
  rw [Multigraph.predecessors, Multigraph.inEdges, filter_recent_stmt h]
  · simp [stmtEdges]
  · intro name hne
    cases name with
    | state loc => rfl
    | stmt src' dst' rank' => simp [stmtEdges, hne]

theorem successors_stmt (h : .stmt src dst rank ∈ (ofFlow f).graph.nodes) :
    (ofFlow f).graph.successors (.stmt src dst rank) = [.state dst] := by
  rw [Multigraph.successors, Multigraph.outEdges, filter_recent_stmt h]
  · simp [stmtEdges]
  · intro name hne
    cases name with
    | state loc => rfl
    | stmt src' dst' rank' => simp [stmtEdges, hne]

theorem nodup_predecessors_state (f : FlowGraph) (loc : Loc) :
    ((ofFlow f).graph.predecessors (.state loc)).Nodup := by
  rw [predecessors_ofFlow, List.nodup_reverse]
  exact (FlowGraph.nodup_names f).filter _

theorem mem_predecessors_state :
    name ∈ (ofFlow f).graph.predecessors (.state loc) ↔
      ∃ src rank, name = .stmt src loc rank ∧ name ∈ (ofFlow f).graph.nodes := by
  rw [predecessors_ofFlow, List.mem_reverse, List.mem_filter, mem_names]
  constructor
  · rintro ⟨⟨src, dst, rank, rfl, hmem⟩, hpost⟩
    simp only [NodeName.post?, Option.some.injEq, NodeName.state.injEq, decide_eq_true_eq] at hpost
    subst hpost
    exact ⟨src, rank, rfl, hmem⟩
  · rintro ⟨src, rank, rfl, hmem⟩
    exact ⟨⟨src, loc, rank, rfl, hmem⟩, by simp [NodeName.post?]⟩

end Skeleton

/-! ## Mirroring -/

namespace DemandGraph

/-- A demanded graph mirrors a flow graph and keeps no state. -/
structure Mirrors (g : DemandGraph) (f : FlowGraph) : Prop where
  /-- No state is kept. -/
  cached : ∀ loc, g.cached? loc = none
  /-- A node stands once. -/
  nodup : g.skeleton.graph.nodes.Nodup
  /-- There are as many nodes as locations and statements. -/
  length_nodes : g.skeleton.graph.nodes.length = f.numLocs + f.numEdges
  /-- The states are those at the locations. -/
  state_mem : ∀ loc, .state loc ∈ g.skeleton.graph.nodes ↔ loc ∈ f.graph.nodes
  /-- The statements between two locations are numbered from zero. -/
  stmt_mem : ∀ src dst rank,
    .stmt src dst rank ∈ g.skeleton.graph.nodes ↔ rank < (f.between src dst).length
  /-- The numbers follow the order of statements. -/
  stmts_stmt : ∀ src dst, ∃ sorted : List Stmt, sorted.Perm (f.between src dst) ∧
    sorted.Pairwise (fun a b => (Stmt.compare a b).isLE) ∧
    ∀ rank, g.skeleton.stmts.get? (.stmt src dst rank) = sorted[rank]?
  /-- A state has no statement. -/
  stmts_state : ∀ loc, g.skeleton.stmts.get? (.state loc) = none
  /-- A statement depends on the state at its source alone. -/
  predecessors_stmt : ∀ src dst rank, .stmt src dst rank ∈ g.skeleton.graph.nodes →
    g.skeleton.graph.predecessors (.stmt src dst rank) = [.state src]
  /-- Only the state at its end depends on a statement. -/
  successors_stmt : ∀ src dst rank, .stmt src dst rank ∈ g.skeleton.graph.nodes →
    g.skeleton.graph.successors (.stmt src dst rank) = [.state dst]
  /-- A state depends once on each statement that leads to its location, and on nothing else. -/
  predecessors_state : ∀ loc, (g.skeleton.graph.predecessors (.state loc)).Nodup ∧
    ∀ name, name ∈ g.skeleton.graph.predecessors (.state loc) ↔
      ∃ src rank, name = .stmt src loc rank ∧ name ∈ g.skeleton.graph.nodes

theorem mirrors_ofFlow (f : FlowGraph) : (ofFlow f).Mirrors f where
  cached _ := rfl
  nodup := (Skeleton.ofFlow f).graph.nodup
  length_nodes := Skeleton.length_nodes f
  state_mem _ := Skeleton.state_mem_nodes
  stmt_mem _ _ _ := Skeleton.stmt_mem_nodes_iff
  stmts_stmt src dst :=
    ⟨f.parallel src dst, f.perm_parallel src dst, f.pairwise_parallel src dst,
      Skeleton.get?_stmts f src dst⟩
  stmts_state := Skeleton.get?_stmts_state f
  predecessors_stmt _ _ _ := Skeleton.predecessors_stmt
  successors_stmt _ _ _ := Skeleton.successors_stmt
  predecessors_state loc :=
    ⟨Skeleton.nodup_predecessors_state f loc, fun _ => Skeleton.mem_predecessors_state⟩

theorem stmts_ofFlow_eq_of_perm {f f' : FlowGraph} (h : f.edges.Perm f'.edges) :
    (ofFlow f').skeleton.stmts = (ofFlow f).skeleton.stmts := by
  refine OrdMap.ext_get? fun name => ?_
  show (Skeleton.ofFlow f').stmts.get? name = (Skeleton.ofFlow f).stmts.get? name
  cases name with
  | state loc => rw [Skeleton.get?_stmts_state, Skeleton.get?_stmts_state]
  | stmt src dst rank =>
    rw [Skeleton.get?_stmts, Skeleton.get?_stmts, FlowGraph.parallel_eq_of_perm h]

/-- The demanded graph of a program mirrors its flow graph, and a flow graph with the same edges,
added in any order, gives the same names to the same statements. -/
theorem ofFlow_mirrors_in_any_order (f : FlowGraph) :
    (ofFlow f).Mirrors f ∧
      ∀ f' : FlowGraph, f.edges.Perm f'.edges →
        (ofFlow f').skeleton.stmts = (ofFlow f).skeleton.stmts :=
  ⟨mirrors_ofFlow f, fun _ => stmts_ofFlow_eq_of_perm⟩

/-- A way that fails between two ways that do nothing. -/
def threeWays : FlowGraph :=
  ((FlowGraph.empty.addEdge .entry .exit .skip).addEdge .entry .exit (.throw (.var "e"))).addEdge
    .entry .exit .skip

/-- The same three ways, the one that fails last. -/
def threeWaysLater : FlowGraph :=
  ((FlowGraph.empty.addEdge .entry .exit .skip).addEdge .entry .exit .skip).addEdge
    .entry .exit (.throw (.var "e"))

theorem ofFlow_mirrors_threeWays :
    threeWays.edges.Perm threeWaysLater.edges ∧
      (ofFlow threeWaysLater).skeleton.stmts = (ofFlow threeWays).skeleton.stmts ∧
      (ofFlow threeWays).skeleton.stmts.get? (.stmt .entry .exit 0) = some (.throw (.var "e")) ∧
      (ofFlow threeWays).skeleton.stmts.get? (.stmt .entry .exit 2) = some .skip ∧
      .stmt .entry .exit 3 ∉ (ofFlow threeWays).skeleton.graph.nodes := by
  have hperm : threeWays.edges.Perm threeWaysLater.edges := .cons _ (.swap _ _ _)
  obtain ⟨hmirrors, hstmts⟩ := ofFlow_mirrors_in_any_order threeWays
  refine ⟨hperm, hstmts _ hperm, rfl, rfl, fun hmem => ?_⟩
  exact absurd ((hmirrors.stmt_mem _ _ _).1 hmem) (by decide)

end DemandGraph

end Demanded
