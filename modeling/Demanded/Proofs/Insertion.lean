import Demanded.FlowGraph.Splice
import Demanded.Proofs.DepthFirst
import Demanded.Proofs.Inputs

/-!
# What an insertion leaves alone

Inserting a statement moves edges and adds one.  All these edges lead to locations that can be
reached from the fresh one, before and after.  So at a location that cannot be reached from it,
nothing changes that a state there depends on: its inputs, which of them come along back edges, and
whether it is a loop head (`Skeleton.AgreesAt`).
-/

namespace Demanded

/-! ## Parts of graphs -/

namespace Multigraph

universe u v

variable {N : Type u} {E : Type v} {keep : N → Bool}

/-- Two graphs agree on a part: on its nodes, and on the edges that lead into it, in both orders. -/
structure AgreesOn (keep : N → Bool) (g g' : Multigraph N E) : Prop where
  nodes : ∀ n, keep n = true → (n ∈ g.nodes ↔ n ∈ g'.nodes)
  edges : (g.edges.filter fun e => keep e.dst) = g'.edges.filter fun e => keep e.dst
  recent : (g.recent.filter fun e => keep e.dst) = g'.recent.filter fun e => keep e.dst
  length_le : g.nodes.length ≤ g'.nodes.length

theorem AgreesOn.trans {g₁ g₂ g₃ : Multigraph N E} (h : AgreesOn keep g₁ g₂)
    (h' : AgreesOn keep g₂ g₃) : AgreesOn keep g₁ g₃ where
  nodes n hn := (h.nodes n hn).trans (h'.nodes n hn)
  edges := h.edges.trans h'.edges
  recent := h.recent.trans h'.recent
  length_le := Nat.le_trans h.length_le h'.length_le

theorem AgreesOn.leads {g g' : Multigraph N E} (h : AgreesOn keep g g') {a b : N}
    (hb : keep b = true) (hab : g.Leads a b) : g'.Leads a b := by
  obtain ⟨e, he, rfl, rfl⟩ := hab
  have hmem : e ∈ g.edges.filter fun e => keep e.dst := List.mem_filter.2 ⟨he, hb⟩
  rw [h.edges] at hmem
  exact ⟨e, List.mem_of_mem_filter hmem, rfl, rfl⟩

theorem AgreesOn.edges_into [DecidableEq N] {g g' : Multigraph N E} (h : AgreesOn keep g g') {n : N}
    (hn : keep n = true) :
    (g.edges.filter fun e => decide (e.dst = n)) = g'.edges.filter fun e => decide (e.dst = n) := by
  have hsplit : ∀ g : Multigraph N E, (g.edges.filter fun e => decide (e.dst = n)) =
      (g.edges.filter fun e => keep e.dst).filter fun e => decide (e.dst = n) := by
    intro g
    rw [List.filter_filter]
    refine List.filter_congr fun e _ => ?_
    by_cases he : e.dst = n
    · simp [he, hn]
    · simp [he]
  rw [hsplit, hsplit, h.edges]

/-- Edges that lead out of the part before and after they are moved do not count. -/
theorem agreesOn_move (g : Multigraph N E) {picked : Edge N E → Bool} {f : Edge N E → Edge N E}
    (h : ∀ e ∈ g.edges, picked e → (f e).src ∈ g.nodes ∧ (f e).dst ∈ g.nodes)
    (hout : ∀ e ∈ g.edges, picked e = true → keep e.dst = false ∧ keep (f e).dst = false) :
    AgreesOn keep g (g.move picked f h) where
  nodes n _ := Iff.rfl
  edges := by
    show _ = (g.edges.map fun e => if picked e then f e else e).filter _
    revert hout
    generalize g.edges = edges
    intro hout
    induction edges with
    | nil => rfl
    | cons e rest ih =>
      obtain ⟨hhead, hrest⟩ := List.forall_mem_cons.1 hout
      rw [List.map_cons, List.filter_cons, List.filter_cons, ih hrest]
      cases hp : picked e with
      | false => rfl
      | true =>
        obtain ⟨hbefore, hafter⟩ := hhead hp
        rw [if_pos rfl, hbefore, hafter]
        rfl
  recent := by
    show _ = ((g.recent.filter picked).reverse.map f ++
      g.recent.filter fun e => !picked e).filter _
    have hout : ∀ e ∈ g.recent, picked e = true → keep e.dst = false ∧ keep (f e).dst = false :=
      fun e he => hout e (g.perm.mem_iff.1 he)
    have hmoved : ((g.recent.filter picked).reverse.map f).filter (fun e => keep e.dst) = [] := by
      refine List.filter_eq_nil_iff.2 fun e he => ?_
      obtain ⟨e₀, he₀, rfl⟩ := List.mem_map.1 he
      obtain ⟨hmem, hp⟩ := List.mem_filter.1 (List.mem_reverse.1 he₀)
      rw [(hout e₀ hmem hp).2]
      exact Bool.false_ne_true
    rw [List.filter_append, hmoved, List.nil_append, List.filter_filter]
    refine List.filter_congr fun e he => ?_
    cases hp : picked e with
    | false => rw [Bool.not_false, Bool.and_true]
    | true => rw [(hout e he hp).1, Bool.false_and]
  length_le := Nat.le_refl _

variable [DecidableEq N] {g g' : Multigraph N E}

theorem agreesOn_addNode (g : Multigraph N E) {n : N} (hn : keep n = false) :
    AgreesOn keep g (g.addNode n) where
  nodes x hx := by
    rw [mem_nodes_addNode]
    refine ⟨.inl, fun h => h.resolve_right ?_⟩
    rintro rfl
    rw [hx] at hn
    cases hn
  edges := by rw [edges_addNode]
  recent := by rw [recent_addNode]
  length_le := by
    unfold addNode
    split
    · exact Nat.le_refl _
    · simp

theorem agreesOn_addEdge (g : Multigraph N E) {src dst : N} (label : E)
    (hsrc : src ∈ g.nodes) (hdst : dst ∈ g.nodes) (hkeep : keep dst = false) :
    AgreesOn keep g (g.addEdge src dst label) where
  nodes n _ := by
    simp only [addEdge, mem_nodes_addNode]
    refine ⟨fun h => .inl (.inl h), ?_⟩
    rintro ((h | rfl) | rfl)
    · exact h
    · exact hsrc
    · exact hdst
  edges := by simp [addEdge, hkeep]
  recent := by simp [addEdge, hkeep]
  length_le := by
    have hnode : ∀ n, n ∈ g.nodes → g.addNode n = g := fun n hn => by rw [addNode, dif_pos hn]
    show _ ≤ ((g.addNode src).addNode dst).nodes.length
    simp only [hnode src hsrc, hnode dst hdst, Nat.le_refl]

theorem leads_addEdge (g : Multigraph N E) (src dst : N) (label : E) :
    (g.addEdge src dst label).Leads src dst :=
  ⟨⟨src, dst, label⟩, List.mem_append_right _ (List.mem_singleton.2 rfl), rfl, rfl⟩

theorem AgreesOn.successors (h : AgreesOn keep g g') (n : N) :
    (g.successors n).filter keep = (g'.successors n).filter keep := by
  have hsplit : ∀ g : Multigraph N E, (g.successors n).filter keep =
      ((g.recent.filter fun e => keep e.dst).filter fun e => decide (e.src = n)).map Edge.dst := by
    intro g
    rw [Multigraph.successors, outEdges, List.filter_map, List.filter_filter, List.filter_filter]
    refine congrArg (List.map Edge.dst) (List.filter_congr fun e _ => ?_)
    exact Bool.and_comm _ _
  rw [hsplit, hsplit, h.recent]

variable [Ord N] [Std.TransOrd N] [Std.LawfulEqOrd N]

/-- Graphs that agree on a part have the same back edges into it, if no edge enters it. -/
theorem AgreesOn.mem_backEdges (h : AgreesOn keep g g')
    (hclosed : ∀ a b, g'.Leads a b → keep b = true → keep a = true) {a b : N}
    (hb : keep b = true) : (a, b) ∈ g.backEdges ↔ (a, b) ∈ g'.backEdges := by
  have heq := backEdges_filter_eq (fun a b hab hb => hclosed a b (h.leads hb hab) hb) hclosed
    h.nodes (fun n _ => h.successors n) h.length_le
  have hmem : ∀ g : Multigraph N E, (a, b) ∈ g.backEdges ↔
      (a, b) ∈ g.backEdges.filter fun edge => keep edge.2 := by
    intro g
    rw [List.mem_filter]
    exact ⟨fun h => ⟨h, hb⟩, And.left⟩
  rw [hmem g, hmem g', heq]

end Multigraph

/-! ## Skeletons -/

/-- Two skeletons agree on what the state at a location depends on. -/
structure Skeleton.AgreesAt (sk sk' : Skeleton) (loc : Loc) : Prop where
  inputs : sk.inputs loc = sk'.inputs loc
  isBack : ∀ src, sk.isBack src loc = sk'.isBack src loc
  heads : loc ∈ sk.heads.toList ↔ loc ∈ sk'.heads.toList
  isRoot : sk.isRoot loc = sk'.isRoot loc

theorem Skeleton.AgreesAt.refl (sk : Skeleton) (loc : Loc) : sk.AgreesAt sk loc :=
  ⟨rfl, fun _ => rfl, Iff.rfl, rfl⟩

theorem agreesAt_of_agreesOn {f f' : FlowGraph} {keep : Loc → Bool}
    (h : f.graph.AgreesOn keep f'.graph)
    (hclosed : ∀ a b, f'.graph.Leads a b → keep b = true → keep a = true) {loc : Loc}
    (hloc : keep loc = true) : (Skeleton.ofFlow f).AgreesAt (.ofFlow f') loc := by
  have hinputs := Skeleton.inputs_congr (h.edges_into hloc)
  have hback : ∀ src, (Skeleton.ofFlow f).isBack src loc = (Skeleton.ofFlow f').isBack src loc := by
    intro src
    rw [Bool.eq_iff_iff, Skeleton.isBack_iff, Skeleton.isBack_iff]
    exact h.mem_backEdges hclosed hloc
  refine ⟨hinputs, hback, ?_, ?_⟩
  · rw [Skeleton.mem_heads, Skeleton.mem_heads]
    exact exists_congr fun src => h.mem_backEdges hclosed hloc
  · simp only [Skeleton.isRoot_ofFlow, hinputs, hback]

/-! ## Insertion -/

namespace FlowGraph

/-- The locations that cannot be reached from a given one. -/
def outside (f : FlowGraph) (start : Loc) (loc : Loc) : Bool :=
  !(f.graph.reachable start).contains loc

theorem outside_eq_true {f : FlowGraph} {start loc : Loc} :
    f.outside start loc = true ↔ loc ∉ (f.graph.reachable start).toList := by
  rw [outside, Bool.not_eq_true', OrdSet.contains_eq_false]

theorem outside_closed {f : FlowGraph} {start a b : Loc} (hab : f.graph.Leads a b)
    (hb : f.outside start b = true) : f.outside start a = true := by
  rw [outside_eq_true, Multigraph.mem_reachable] at hb ⊢
  exact fun ha => hb ⟨ha.1, ha.2.tail hab⟩

theorem outside_eq_false {f : FlowGraph} {start loc : Loc} (hstart : start ∈ f.graph.nodes)
    (h : f.graph.Reaches start loc) : f.outside start loc = false := by
  rw [← Bool.not_eq_true, outside_eq_true, not_not]
  exact Multigraph.mem_reachable.2 ⟨hstart, h⟩

variable {f : FlowGraph} {loc fresh : Loc} (stmt : Stmt)

theorem agreesOn_spliceBefore (hloc : loc ∈ f.graph.nodes) :
    f.graph.AgreesOn ((f.spliceBefore loc fresh stmt).outside fresh)
      (f.spliceBefore loc fresh stmt).graph := by
  have hedge : (f.spliceBefore loc fresh stmt).graph.Leads fresh loc :=
    Multigraph.leads_addEdge _ _ _ _
  have hfresh := outside_eq_false hedge.src_mem .refl
  have hout := outside_eq_false hedge.src_mem (.single hedge)
  generalize (f.spliceBefore loc fresh stmt).outside fresh = keep at hfresh hout ⊢
  have hin : fresh ∈ (f.graph.addNode fresh).nodes := Multigraph.mem_nodes_addNode.2 (.inr rfl)
  have hloc' : loc ∈ (f.graph.addNode fresh).nodes := Multigraph.mem_nodes_addNode.2 (.inl hloc)
  simp only [spliceBefore, Multigraph.redirectIn, if_pos hloc]
  refine ((Multigraph.agreesOn_addNode f.graph hfresh).trans
    (Multigraph.agreesOn_move _ _ fun e _ hp => ?_)).trans
    (Multigraph.agreesOn_addEdge _ stmt hin hloc' hout)
  rw [Bool.and_eq_true, decide_eq_true_eq] at hp
  exact ⟨hp.1 ▸ hout, hfresh⟩

/-- An edge that is moved leaves from the fresh location afterwards. -/
theorem leads_spliceAfter (hloc : loc ∈ f.graph.nodes) {e : Edge Loc Stmt}
    (he : e ∈ f.graph.edges) (hsrc : e.src = loc) :
    (f.spliceAfter loc fresh stmt).graph.Leads fresh e.dst := by
  refine ⟨{ e with src := fresh }, ?_, rfl, rfl⟩
  simp only [spliceAfter, Multigraph.redirectOut, if_pos hloc]
  refine List.mem_append_left _ (List.mem_map.2 ⟨e, ?_, by simp [hsrc]⟩)
  rwa [Multigraph.edges_addNode]

theorem agreesOn_spliceAfter (hloc : loc ∈ f.graph.nodes) :
    f.graph.AgreesOn ((f.spliceAfter loc fresh stmt).outside fresh)
      (f.spliceAfter loc fresh stmt).graph := by
  have hedge : (f.spliceAfter loc fresh stmt).graph.Leads loc fresh :=
    Multigraph.leads_addEdge _ _ _ _
  have hfresh := outside_eq_false hedge.dst_mem .refl
  have hout : ∀ e ∈ f.graph.edges, e.src = loc →
      (f.spliceAfter loc fresh stmt).outside fresh e.dst = false := fun e he hsrc =>
    outside_eq_false hedge.dst_mem (.single (leads_spliceAfter stmt hloc he hsrc))
  generalize (f.spliceAfter loc fresh stmt).outside fresh = keep at hfresh hout ⊢
  have hin : fresh ∈ (f.graph.addNode fresh).nodes := Multigraph.mem_nodes_addNode.2 (.inr rfl)
  have hloc' : loc ∈ (f.graph.addNode fresh).nodes := Multigraph.mem_nodes_addNode.2 (.inl hloc)
  simp only [spliceAfter, Multigraph.redirectOut, if_pos hloc]
  refine ((Multigraph.agreesOn_addNode f.graph hfresh).trans
    (Multigraph.agreesOn_move _ _ fun e he hp => ?_)).trans
    (Multigraph.agreesOn_addEdge _ stmt hloc' hin hfresh)
  rw [Multigraph.edges_addNode] at he
  have hdst := hout e he (of_decide_eq_true hp)
  exact ⟨hdst, hdst⟩

theorem mem_nodes_splice (hloc : loc ∈ f.graph.nodes) {x : Loc} :
    x ∈ (f.splice loc fresh stmt).graph.nodes ↔ x ∈ f.graph.nodes ∨ x = fresh := by
  have hnodes : x ∈ (f.splice loc fresh stmt).graph.nodes ↔
      (x ∈ f.graph.nodes ∨ x = fresh) ∨ x = fresh ∨ x = loc := by
    unfold splice
    split
    · simp only [spliceBefore, Multigraph.redirectIn, if_pos hloc, Multigraph.addEdge,
        Multigraph.mem_nodes_addNode, Multigraph.move, or_assoc]
    · simp only [spliceAfter, Multigraph.redirectOut, if_pos hloc, Multigraph.addEdge,
        Multigraph.mem_nodes_addNode, Multigraph.move, or_assoc]
      rw [or_comm (a := x = loc)]
  rw [hnodes]
  refine ⟨?_, .inl⟩
  rintro (h | rfl | rfl)
  · exact h
  · exact .inr rfl
  · exact .inl hloc

theorem addStmtAt_of_mem (supply : LocSupply) (hloc : loc ∈ f.graph.nodes) :
    f.addStmtAt supply loc stmt =
      .ok (supply.fresh.1, f.splice loc supply.fresh.1 stmt, supply.fresh.2) := by
  rw [addStmtAt, if_pos (contains_iff.2 hloc)]

theorem addStmtAt_of_notMem (supply : LocSupply) (hloc : loc ∉ f.graph.nodes) :
    f.addStmtAt supply loc stmt = .error (.unknownLocation loc) := by
  rw [addStmtAt, if_neg fun h => hloc (contains_iff.1 h)]

theorem mem_reachable_fresh (hloc : loc ∈ f.graph.nodes) {x : Loc} :
    x ∈ ((f.splice loc fresh stmt).graph.reachable fresh).toList ↔
      (f.splice loc fresh stmt).graph.Reaches fresh x :=
  Multigraph.mem_reachable.trans (and_iff_right ((mem_nodes_splice stmt hloc).2 (.inr rfl)))

theorem agreesOn_splice (hloc : loc ∈ f.graph.nodes) :
    f.graph.AgreesOn ((f.splice loc fresh stmt).outside fresh) (f.splice loc fresh stmt).graph := by
  unfold splice
  split
  · exact agreesOn_spliceBefore stmt hloc
  · exact agreesOn_spliceAfter stmt hloc

/-- An insertion changes nothing on which states outside the reach of the fresh location depend. -/
theorem agreesAt_splice (hloc : loc ∈ f.graph.nodes) {x : Loc}
    (hx : x ∉ ((f.splice loc fresh stmt).graph.reachable fresh).toList) :
    (Skeleton.ofFlow f).AgreesAt (.ofFlow (f.splice loc fresh stmt)) x :=
  agreesAt_of_agreesOn (agreesOn_splice stmt hloc) (fun _ _ => outside_closed)
    (outside_eq_true.2 hx)

theorem arrivals_splice (hloc : loc ∈ f.graph.nodes) {x : Loc}
    (hx : x ∉ ((f.splice loc fresh stmt).graph.reachable fresh).toList) :
    (f.splice loc fresh stmt).arrivals x = f.arrivals x :=
  congrArg _ ((agreesOn_splice stmt hloc).edges_into (outside_eq_true.2 hx)).symm

end FlowGraph

end Demanded
