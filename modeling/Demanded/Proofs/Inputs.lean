import Mathlib.Data.List.Nodup
import Demanded.DemandGraph.Skeleton
import Demanded.Proofs.DepthFirst

/-!
# The inputs of a location

The skeleton of a flow graph has, for each location, the nodes of the statements that lead to it.
`Skeleton.inputs` lists these statements with their sources, and this module says which they are:
`inputs_ofFlow` computes the list from the flow graph, and `mem_inputs` says that it has one member
for each edge.  No statement node is without its statement (`stmt_of_mem_predecessors`).

The list depends only on the edges into the location, in their order, so it does not change where
these do not (`inputs_congr`).
-/

namespace Demanded

universe u

/-! ## Sorting -/

section Sorting

variable {α : Type u}

theorem perm_insertBy (cmp : α → α → Ordering) (x : α) (l : List α) :
    (insertBy cmp x l).Perm (x :: l) := by
  induction l with
  | nil => exact List.Perm.refl _
  | cons y rest ih =>
    rw [insertBy]
    split
    · exact List.Perm.refl _
    · exact (ih.cons y).trans (List.Perm.swap x y rest)

theorem perm_sortBy (cmp : α → α → Ordering) (l : List α) : (sortBy cmp l).Perm l := by
  induction l with
  | nil => exact List.Perm.refl _
  | cons x rest ih => exact (perm_insertBy cmp x _).trans (ih.cons x)

end Sorting

/-! ## Names of statements -/

namespace FlowGraph

variable {f : FlowGraph}

theorem contains_iff {loc : Loc} : f.contains loc = true ↔ loc ∈ f.graph.nodes :=
  decide_eq_true_iff

theorem mem_loopHeads {loc : Loc} :
    loc ∈ f.loopHeads.toList ↔ ∃ src, (src, loc) ∈ f.backEdges := by
  simp [loopHeads, OrdSet.mem_ofList]

theorem mem_connected {a b : Loc} : (a, b) ∈ f.connected ↔ f.graph.Leads a b := by
  rw [connected, List.mem_filterMap]
  constructor
  · rintro ⟨name, hname, hpair⟩
    rw [OrdSet.mem_ofList, List.mem_map] at hname
    obtain ⟨e, he, rfl⟩ := hname
    simp only [Option.some.injEq, Prod.mk.injEq] at hpair
    exact ⟨e, he, hpair.1, hpair.2⟩
  · rintro ⟨e, he, rfl, rfl⟩
    exact ⟨.stmt e.src e.dst 0, OrdSet.mem_ofList.2 (List.mem_map.2 ⟨e, he, rfl⟩), rfl⟩

theorem nodup_connected (f : FlowGraph) : f.connected.Nodup := by
  rw [connected, List.Nodup, List.pairwise_filterMap]
  refine (OrdSet.nodup_toList _).imp_of_mem fun {n n'} hn hn' hne p hp p' hp' hpp => hne ?_
  -- all names in the set have rank `0`, so the pair determines the name
  rw [OrdSet.mem_ofList, List.mem_map] at hn hn'
  obtain ⟨e, -, rfl⟩ := hn
  obtain ⟨e', -, rfl⟩ := hn'
  simp only [Option.some.injEq] at hp hp'
  rw [← hp, ← hp', Prod.mk.injEq] at hpp
  rw [hpp.1, hpp.2]

theorem mem_parallel {a b : Loc} {stmt : Stmt} :
    stmt ∈ f.parallel a b ↔ ∃ e ∈ f.edges, e.src = a ∧ e.dst = b ∧ e.label = stmt := by
  rw [parallel, (perm_sortBy _ _).mem_iff]
  simp only [List.mem_map, List.mem_filter, decide_eq_true_eq, and_assoc]

theorem mem_namedStmts {name : NodeName} {stmt : Stmt} :
    (name, stmt) ∈ f.namedStmts ↔ ∃ src dst rank, (src, dst) ∈ f.connected ∧
      name = .stmt src dst rank ∧ (f.parallel src dst)[rank]? = some stmt := by
  simp only [namedStmts, List.mem_flatMap, List.mem_mapIdx, Prod.exists, Prod.mk.injEq]
  constructor
  · rintro ⟨src, dst, hpair, rank, hlt, rfl, rfl⟩
    exact ⟨src, dst, rank, hpair, rfl, List.getElem?_eq_getElem hlt⟩
  · rintro ⟨src, dst, rank, hpair, rfl, hget⟩
    obtain ⟨hlt, rfl⟩ := List.getElem?_eq_some_iff.1 hget
    exact ⟨src, dst, hpair, rank, hlt, rfl, rfl⟩

/-- The statements that lead to a location, with their sources, in the order in which they were
added. -/
def arrivals (f : FlowGraph) (loc : Loc) : List (Loc × Stmt) :=
  (f.edges.filter fun e => decide (e.dst = loc)).map fun e => (e.src, e.label)

theorem mem_arrivals {loc src : Loc} {stmt : Stmt} :
    (src, stmt) ∈ f.arrivals loc ↔ ∃ e ∈ f.edges, e.src = src ∧ e.dst = loc ∧ e.label = stmt := by
  simp only [arrivals, List.mem_map, List.mem_filter, decide_eq_true_eq, Prod.mk.injEq]
  constructor
  · rintro ⟨e, ⟨he, hdst⟩, hsrc, hlabel⟩
    exact ⟨e, he, hsrc, hdst, hlabel⟩
  · rintro ⟨e, he, hsrc, hdst, hlabel⟩
    exact ⟨e, ⟨he, hdst⟩, hsrc, hlabel⟩

/-- A name stands for one statement. -/
theorem nodup_names (f : FlowGraph) : (f.namedStmts.map Prod.fst).Nodup := by
  have hmap : f.namedStmts.map Prod.fst =
      f.connected.flatMap fun p =>
        (List.range (f.parallel p.1 p.2).length).map fun rank => .stmt p.1 p.2 rank := by
    rw [namedStmts, List.map_flatMap]
    refine List.flatMap_congr fun p _ => ?_
    exact List.ext_getElem (by simp) fun i h h' => by simp
  rw [hmap, List.nodup_flatMap]
  refine ⟨fun p _ => ?_, (nodup_connected f).imp fun {p p'} hne => ?_⟩
  · refine List.Nodup.map (fun a b hab => ?_) List.nodup_range
    exact (NodeName.stmt.inj hab).2.2
  · intro name h h'
    obtain ⟨rank, -, rfl⟩ := List.mem_map.1 h
    obtain ⟨rank', -, he⟩ := List.mem_map.1 h'
    obtain ⟨h1, h2, -⟩ := NodeName.stmt.inj he
    exact hne (Prod.ext h1.symm h2.symm)

end FlowGraph

namespace Skeleton

variable {f : FlowGraph}

/-- The edges of a statement node, the one placed last first. -/
def stmtEdges : NodeName → List (Edge NodeName Dependency)
  | .state _ => []
  | .stmt src dst rank =>
    [⟨.stmt src dst rank, .state dst, .post⟩, ⟨.state src, .stmt src dst rank, .pre⟩]

theorem recent_foldl_addStmt (names : List NodeName) (g : Multigraph NodeName Dependency) :
    (names.foldl addStmt g).recent = names.reverse.flatMap stmtEdges ++ g.recent := by
  induction names generalizing g with
  | nil => rfl
  | cons name rest ih =>
    have hadd : (addStmt g name).recent = stmtEdges name ++ g.recent := by
      cases name <;> rfl
    rw [List.foldl_cons, ih, hadd, List.reverse_cons, List.flatMap_append, List.append_assoc]
    simp

theorem recent_foldl_addNode (locs : List Loc) (g : Multigraph NodeName Dependency) :
    (locs.foldl (fun g loc => g.addNode (.state loc)) g).recent = g.recent := by
  induction locs generalizing g with
  | nil => rfl
  | cons loc rest ih => rw [List.foldl_cons, ih, Multigraph.recent_addNode]

/-! ## Nodes -/

/-- The nodes that a statement needs. -/
def nodesOf : NodeName → List NodeName
  | .state _ => []
  | .stmt src dst rank => [.state src, .stmt src dst rank, .state dst]

theorem mem_nodes_foldl_addNode {locs : List Loc} {g : Multigraph NodeName Dependency}
    {x : NodeName} :
    x ∈ (locs.foldl (fun g loc => g.addNode (.state loc)) g).nodes ↔
      x ∈ g.nodes ∨ ∃ loc ∈ locs, x = .state loc := by
  induction locs generalizing g with
  | nil => simp
  | cons loc rest ih =>
    rw [List.foldl_cons, ih, Multigraph.mem_nodes_addNode]
    simp [or_assoc]

theorem mem_nodes_foldl_addStmt {names : List NodeName} {g : Multigraph NodeName Dependency}
    {x : NodeName} :
    x ∈ (names.foldl addStmt g).nodes ↔ x ∈ g.nodes ∨ ∃ name ∈ names, x ∈ nodesOf name := by
  have hadd : ∀ g name, x ∈ (addStmt g name).nodes ↔ x ∈ g.nodes ∨ x ∈ nodesOf name := by
    intro g name
    cases name with
    | state loc => simp [addStmt, nodesOf]
    | stmt src dst rank =>
      simp only [addStmt, Multigraph.addEdge, Multigraph.mem_nodes_addNode, nodesOf, List.mem_cons,
        List.not_mem_nil, or_false]
      tauto
  induction names generalizing g with
  | nil => simp
  | cons name rest ih =>
    refine (ih (g := addStmt g name)).trans ?_
    rw [hadd]
    simp [or_assoc]

theorem mem_nodes_ofFlow {x : NodeName} :
    x ∈ (ofFlow f).graph.nodes ↔
      (∃ loc ∈ f.locs, x = .state loc) ∨ ∃ e ∈ f.namedStmts, x ∈ nodesOf e.1 := by
  show x ∈ ((f.namedStmts.map Prod.fst).foldl addStmt _).nodes ↔ _
  rw [mem_nodes_foldl_addStmt, mem_nodes_foldl_addNode]
  simp [Multigraph.empty]

theorem state_mem_nodes {loc : Loc} :
    .state loc ∈ (ofFlow f).graph.nodes ↔ loc ∈ f.graph.nodes := by
  rw [mem_nodes_ofFlow]
  constructor
  · rintro (⟨loc', hloc, he⟩ | ⟨⟨name, stmt⟩, hmem, hx⟩)
    · cases he
      exact Multigraph.mem_sortedNodes.1 hloc
    · -- the ends of a statement are locations of the graph
      obtain ⟨src, dst, rank, hpair, rfl, -⟩ := FlowGraph.mem_namedStmts.1 hmem
      have hleads := FlowGraph.mem_connected.1 hpair
      simp only [nodesOf, List.mem_cons, NodeName.state.injEq, reduceCtorEq, List.not_mem_nil,
        or_false, false_or] at hx
      rcases hx with rfl | rfl
      · exact hleads.src_mem
      · exact hleads.dst_mem
  · exact fun h => .inl ⟨loc, Multigraph.mem_sortedNodes.2 h, rfl⟩

theorem stmt_mem_nodes {src dst : Loc} {rank : Nat} :
    .stmt src dst rank ∈ (ofFlow f).graph.nodes ↔
      ∃ stmt, (ofFlow f).stmts.get? (.stmt src dst rank) = some stmt := by
  have hget : ∀ name stmt, (ofFlow f).stmts.get? name = some stmt ↔ (name, stmt) ∈ f.namedStmts :=
    fun _ _ => OrdMap.get?_ofList_eq_some_iff (FlowGraph.nodup_names f)
  simp only [mem_nodes_ofFlow, hget]
  constructor
  · rintro (⟨loc, -, he⟩ | ⟨⟨name, stmt⟩, hmem, hx⟩)
    · cases he
    · obtain ⟨src', dst', rank', -, rfl, -⟩ := FlowGraph.mem_namedStmts.1 hmem
      simp only [nodesOf, List.mem_cons, reduceCtorEq, List.not_mem_nil, or_false, false_or] at hx
      exact ⟨stmt, hx ▸ hmem⟩
  · rintro ⟨stmt, hmem⟩
    exact .inr ⟨_, hmem, by simp [nodesOf]⟩

/-! ## Predecessors of a state -/

theorem recent_ofFlow (f : FlowGraph) :
    (ofFlow f).graph.recent = (f.namedStmts.map Prod.fst).reverse.flatMap stmtEdges := by
  show ((f.namedStmts.map Prod.fst).foldl addStmt _).recent = _
  rw [recent_foldl_addStmt, recent_foldl_addNode]
  exact List.append_nil _

/-- The statement nodes that lead to a location, the last one of the order of names first. -/
theorem predecessors_ofFlow (f : FlowGraph) (loc : Loc) :
    (ofFlow f).graph.predecessors (.state loc) =
      ((f.namedStmts.map Prod.fst).filter fun name =>
        decide (name.post? = some (.state loc))).reverse := by
  rw [Multigraph.predecessors, Multigraph.inEdges, recent_ofFlow, ← List.filter_reverse]
  generalize (f.namedStmts.map Prod.fst).reverse = names
  induction names with
  | nil => rfl
  | cons name rest ih =>
    rw [List.flatMap_cons, List.filter_append, List.map_append, ih]
    cases name with
    | state l => simp [stmtEdges, NodeName.post?]
    | stmt src dst rank =>
      by_cases h : dst = loc <;> simp [stmtEdges, NodeName.post?, h]

/-- A statement node that leads to a location has its statement. -/
theorem stmt_of_mem_predecessors {loc : Loc} {name : NodeName}
    (h : name ∈ (ofFlow f).graph.predecessors (.state loc)) :
    ∃ src rank stmt, name = .stmt src loc rank ∧ (ofFlow f).stmts.get? name = some stmt := by
  rw [predecessors_ofFlow, List.mem_reverse, List.mem_filter, List.mem_map] at h
  obtain ⟨⟨⟨name, stmt⟩, hmem, rfl⟩, hpost⟩ := h
  obtain ⟨src, dst, rank, -, rfl, -⟩ := FlowGraph.mem_namedStmts.1 hmem
  simp only [NodeName.post?, Option.some.injEq, NodeName.state.injEq, decide_eq_true_eq] at hpost
  subst hpost
  exact ⟨src, rank, stmt, rfl, OrdMap.get?_ofList_of_mem (FlowGraph.nodup_names f) hmem⟩

/-! ## Inputs -/

/-- The source and the statement of a statement node. -/
def input? (sk : Skeleton) (name : NodeName) : Option (Loc × Stmt) :=
  match name with
  | .state _ => none
  | .stmt src _ _ => (sk.stmts.get? name).map fun stmt => (src, stmt)

/-- The statements that lead to a location, with their sources. -/
def inputs (sk : Skeleton) (loc : Loc) : List (Loc × Stmt) :=
  (sk.graph.predecessors (.state loc)).filterMap sk.input?

/-- The inputs of a location that do not come along a back edge. -/
def forwardInputs (sk : Skeleton) (loc : Loc) : List (Loc × Stmt) :=
  (sk.inputs loc).filter fun input => !sk.isBack input.1 loc

/-- The inputs of a location that come along a back edge. -/
def backInputs (sk : Skeleton) (loc : Loc) : List (Loc × Stmt) :=
  (sk.inputs loc).filter fun input => sk.isBack input.1 loc

/-- Nodes may be chosen by their sources before or after their statements are looked up. -/
theorem filterMap_inputNodes (sk : Skeleton) (loc : Loc) (keep : Loc → Bool) :
    (sk.inputNodes loc keep).filterMap sk.input? =
      (sk.inputs loc).filter fun input => keep input.1 := by
  rw [inputNodes, inputs, List.filterMap_filter, List.filter_filterMap]
  refine List.filterMap_congr fun name _ => ?_
  cases name with
  | state l => rfl
  | stmt src dst rank =>
    rw [input?]
    cases sk.stmts.get? (.stmt src dst rank) with
    | none => simp
    | some stmt => by_cases h : keep src = true <;> simp [h, Option.filter]

theorem filterMap_forwardNodes (sk : Skeleton) (loc : Loc) :
    (sk.forwardNodes loc).filterMap sk.input? = sk.forwardInputs loc :=
  sk.filterMap_inputNodes loc _

theorem filterMap_backNodes (sk : Skeleton) (loc : Loc) :
    (sk.backNodes loc).filterMap sk.input? = sk.backInputs loc :=
  sk.filterMap_inputNodes loc _

private theorem filterMap_mapIdx {α β γ : Type} (h : β → Option γ) (k : α → Option γ)
    (l : List α) (g : Nat → α → β) (hk : ∀ i a, h (g i a) = k a) :
    (l.mapIdx g).filterMap h = l.filterMap k := by
  induction l generalizing g with
  | nil => rfl
  | cons a rest ih =>
    rw [List.mapIdx_cons, List.filterMap_cons, List.filterMap_cons, hk,
      ih (fun i => g (i + 1)) fun i a => hk (i + 1) a]

/-- The source and the statement of a named statement that leads to `loc`. -/
def inputOf (loc : Loc) (named : NodeName × Stmt) : Option (Loc × Stmt) :=
  match named.1 with
  | .state _ => none
  | .stmt src dst _ => if dst = loc then some (src, named.2) else none

theorem inputs_eq_filterMap (f : FlowGraph) (loc : Loc) :
    (ofFlow f).inputs loc = (f.namedStmts.filterMap (inputOf loc)).reverse := by
  rw [inputs, predecessors_ofFlow, List.filterMap_reverse, List.filter_map, List.filterMap_map,
    List.filterMap_filter]
  refine congrArg List.reverse (List.filterMap_congr fun e he => ?_)
  obtain ⟨name, stmt⟩ := e
  have hget : (ofFlow f).stmts.get? name = some stmt :=
    OrdMap.get?_ofList_of_mem (FlowGraph.nodup_names f) he
  cases name with
  | state l => simp [inputOf, NodeName.post?]
  | stmt src dst rank =>
    by_cases h : dst = loc
    · simp [inputOf, input?, NodeName.post?, h, h ▸ hget]
    · simp [inputOf, NodeName.post?, h]

/-- The inputs of a location: for each source, the last one first, the statements from there. -/
theorem inputs_ofFlow (f : FlowGraph) (loc : Loc) :
    (ofFlow f).inputs loc =
      ((f.connected.filter fun p => decide (p.2 = loc)).flatMap fun p =>
        (f.parallel p.1 loc).map fun stmt => (p.1, stmt)).reverse := by
  rw [inputs_eq_filterMap, FlowGraph.namedStmts, List.filterMap_flatMap]
  refine congrArg List.reverse ?_
  generalize f.connected = pairs
  induction pairs with
  | nil => rfl
  | cons p rest ih =>
    rw [List.flatMap_cons, ih]
    by_cases h : p.2 = loc
    · rw [filterMap_mapIdx _ (some ∘ fun stmt => (p.1, stmt)) _ _ fun i s => by simp [inputOf, h],
        List.filter_cons_of_pos (by simpa using h), List.flatMap_cons, List.filterMap_eq_map, h]
    · rw [filterMap_mapIdx _ (fun _ => none) _ _ fun i s => by simp [inputOf, h],
        List.filter_cons_of_neg (by simpa using h)]
      simp

/-- A location has one input for each edge that leads to it. -/
theorem mem_inputs {loc src : Loc} {stmt : Stmt} :
    (src, stmt) ∈ (ofFlow f).inputs loc ↔
      ∃ e ∈ f.edges, e.src = src ∧ e.dst = loc ∧ e.label = stmt := by
  rw [inputs_ofFlow]
  simp only [List.mem_reverse, List.mem_flatMap, List.mem_filter, decide_eq_true_eq, List.mem_map,
    Prod.exists, Prod.mk.injEq, FlowGraph.mem_connected, FlowGraph.mem_parallel]
  constructor
  · rintro ⟨a, b, ⟨-, rfl⟩, s, ⟨e, he, rfl, hb, rfl⟩, rfl, rfl⟩
    exact ⟨e, he, rfl, hb, rfl⟩
  · rintro ⟨e, he, rfl, rfl, rfl⟩
    exact ⟨e.src, e.dst, ⟨⟨e, he, rfl, rfl⟩, rfl⟩, e.label, ⟨e, he, rfl, rfl, rfl⟩, rfl, rfl⟩

theorem leads_of_mem_inputs {loc : Loc} {input : Loc × Stmt}
    (h : input ∈ (ofFlow f).inputs loc) : f.graph.Leads input.1 loc := by
  obtain ⟨e, he, hsrc, hdst, -⟩ := mem_inputs.1 h
  exact ⟨e, he, hsrc, hdst⟩

/-- The locations between which a statement stands. -/
def ends? : NodeName → Option (Loc × Loc)
  | .stmt src dst _ => some (src, dst)
  | .state _ => none

private theorem connected_congr {f' : FlowGraph} {loc : Loc}
    (h : ∀ e : Edge Loc Stmt, e.dst = loc → (e ∈ f.edges ↔ e ∈ f'.edges)) :
    (f.connected.filter fun p => decide (p.2 = loc)) =
      f'.connected.filter fun p => decide (p.2 = loc) := by
  have hnames : ∀ f : FlowGraph, (f.connected.filter fun p => decide (p.2 = loc)) =
      ((OrdSet.ofList (f.edges.map fun e => NodeName.stmt e.src e.dst 0)).toList.filter fun name =>
        decide (name.post? = some (.state loc))).filterMap ends? := by
    intro f
    rw [FlowGraph.connected, List.filter_filterMap, List.filterMap_filter]
    refine List.filterMap_congr fun name _ => ?_
    cases name with
    | state l => simp [NodeName.post?]
    | stmt src dst rank =>
      by_cases hd : dst = loc <;> simp [NodeName.post?, ends?, hd, Option.filter]
  rw [hnames, hnames]
  refine congrArg _ (OrdSet.filter_toList_eq fun name hname => ?_)
  simp only [OrdSet.mem_ofList, List.mem_map]
  constructor
  · rintro ⟨e, he, rfl⟩
    exact ⟨e, (h e (by simpa [NodeName.post?] using hname)).1 he, rfl⟩
  · rintro ⟨e, he, rfl⟩
    exact ⟨e, (h e (by simpa [NodeName.post?] using hname)).2 he, rfl⟩

/-- The inputs depend only on the edges that lead to the location. -/
theorem inputs_congr {f' : FlowGraph} {loc : Loc}
    (h : (f.edges.filter fun e => decide (e.dst = loc)) =
      f'.edges.filter fun e => decide (e.dst = loc)) :
    (ofFlow f).inputs loc = (ofFlow f').inputs loc := by
  have hedge : ∀ e : Edge Loc Stmt, e.dst = loc → (e ∈ f.edges ↔ e ∈ f'.edges) := by
    intro e he
    have hmem : e ∈ (f.edges.filter fun e => decide (e.dst = loc)) ↔
        e ∈ f'.edges.filter fun e => decide (e.dst = loc) := by rw [h]
    simpa [List.mem_filter, he] using hmem
  have hparallel : ∀ src, f.parallel src loc = f'.parallel src loc := by
    intro src
    have hsplit : ∀ f : FlowGraph, (f.edges.filter fun e => decide (e.src = src ∧ e.dst = loc)) =
        (f.edges.filter fun e => decide (e.dst = loc)).filter fun e => decide (e.src = src) := by
      intro f
      rw [List.filter_filter]
      exact List.filter_congr fun e _ => Bool.decide_and _ _
    rw [FlowGraph.parallel, FlowGraph.parallel, hsplit, hsplit, h]
  rw [inputs_ofFlow, inputs_ofFlow, connected_congr hedge]
  simp only [hparallel]

/-! ## Roots and heads -/

theorem isBack_iff {src dst : Loc} :
    (ofFlow f).isBack src dst = true ↔ (src, dst) ∈ f.backEdges := by
  rw [isBack]
  exact List.contains_iff_mem

theorem mem_heads {loc : Loc} :
    loc ∈ (ofFlow f).heads.toList ↔ ∃ src, (src, loc) ∈ f.backEdges :=
  FlowGraph.mem_loopHeads

theorem isRoot_ofFlow (f : FlowGraph) (loc : Loc) :
    (ofFlow f).isRoot loc =
      ((ofFlow f).inputs loc).all fun input => (ofFlow f).isBack input.1 loc := by
  -- no statement node is lost, so nodes and inputs have the same sources
  have hnil : (ofFlow f).forwardNodes loc = [] ↔ (ofFlow f).forwardInputs loc = [] := by
    rw [← filterMap_forwardNodes, List.filterMap_eq_nil_iff, List.eq_nil_iff_forall_not_mem]
    refine forall_congr' fun name => imp_congr_right fun hname => iff_of_false id ?_
    obtain ⟨src, rank, stmt, rfl, hget⟩ := stmt_of_mem_predecessors (List.mem_of_mem_filter hname)
    simp [input?, hget]
  rw [Bool.eq_iff_iff, isRoot, List.isEmpty_iff, hnil, forwardInputs, List.filter_eq_nil_iff,
    List.all_eq_true]
  simp

theorem isRoot_iff {loc : Loc} :
    (ofFlow f).isRoot loc = true ↔ ∀ e ∈ f.edges, e.dst = loc → (e.src, loc) ∈ f.backEdges := by
  rw [isRoot_ofFlow, List.all_eq_true]
  constructor
  · intro h e he hdst
    exact isBack_iff.1 (h (e.src, e.label) (mem_inputs.2 ⟨e, he, rfl, hdst, rfl⟩))
  · rintro h ⟨src, stmt⟩ hmem
    obtain ⟨e, he, rfl, rfl, rfl⟩ := mem_inputs.1 hmem
    exact isBack_iff.2 (h e he rfl)

end Skeleton

end Demanded
