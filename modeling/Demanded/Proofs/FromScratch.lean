import Demanded.Proofs.Convergence
import Demanded.Proofs.PostFixpoint

/-!
# Outside loops, demands agree with a recomputation

Where no loop leads, the states of a program are given by a plain recursion along its edges:
`FlowGraph.naive` starts unconstrained where nothing leads to a location, and otherwise joins what
the statements on the edges into it make of the states at their sources.  It knows no cells and no
passes.  It comes to an end because each source lies below its target in the order of
`Multigraph.exists_rank`.

A state outside loops waits for no loop head, so one demand makes it final.  A final state is
supported by a set of settled locations that has the sources of its members, and in such a set the
recursion has no choice: `Supports.iterate_eq_naive`.

The main result is `DemandGraph.get_eq_naive`.  Whether a loop leads to a location does not depend
on the order in which the edges were added (`FlowGraph.loopless_iff`), nor do joins, so two graphs
whose programs have the same edges give the same answer.
-/

namespace Demanded

namespace FlowGraph

variable {f f' : FlowGraph} {loc : Loc}

/-! ## Locations outside loops -/

/-- No loop head leads to the location, and it is none itself. -/
def Loopless (f : FlowGraph) (loc : Loc) : Prop :=
  ∀ h ∈ f.loopHeads.toList, ¬f.graph.Reaches h loc

theorem loopless_iff_reachable :
    f.Loopless loc ↔ ∀ h ∈ f.loopHeads.toList, loc ∉ (f.graph.reachable h).toList := by
  refine forall₂_congr fun h hh => not_congr ?_
  rw [Multigraph.mem_reachable]
  exact (and_iff_right (Skeleton.mem_nodes_of_mem_heads hh)).symm

instance (f : FlowGraph) (loc : Loc) : Decidable (f.Loopless loc) :=
  decidable_of_iff' _ loopless_iff_reachable

/-- The locations outside loops are those to which no cycle leads. -/
theorem loopless_iff :
    f.Loopless loc ↔
      ∀ x y, f.graph.Leads x y → f.graph.Reaches y x → ¬f.graph.Reaches y loc := by
  constructor
  · intro h x y hxy hyx hy
    obtain ⟨a, b, hback, hb⟩ := Multigraph.exists_mem_backEdges hxy hyx
    exact h b (Skeleton.mem_heads.2 ⟨a, hback⟩) (hb.trans hy)
  · intro h head hhead
    obtain ⟨src, hback⟩ := Skeleton.mem_heads.1 hhead
    exact h src head (Multigraph.leads_of_mem_backEdges hback)
      (Multigraph.reaches_of_mem_backEdges hback)

theorem leads_congr (hedges : ∀ e, e ∈ f'.edges ↔ e ∈ f.edges) :
    f'.graph.Leads = f.graph.Leads := by
  funext a b
  exact propext (exists_congr fun e => and_congr_left' (hedges e))

theorem Loopless.congr (h : f.Loopless loc) (hedges : ∀ e, e ∈ f'.edges ↔ e ∈ f.edges) :
    f'.Loopless loc := by
  rw [loopless_iff] at h ⊢
  rwa [Multigraph.Reaches, leads_congr hedges]

theorem leads_of_mem_arrivals {a : Loc × Stmt} (h : a ∈ f.arrivals loc) :
    f.graph.Leads a.1 loc := by
  obtain ⟨e, he, hsrc, hdst, -⟩ := mem_arrivals.1 h
  exact ⟨e, he, hsrc, hdst⟩

/-- What leads to a location outside loops lies outside loops. -/
theorem Loopless.source (h : f.Loopless loc) {a : Loc × Stmt} (ha : a ∈ f.arrivals loc) :
    f.Loopless a.1 :=
  fun head hhead hreach => h head hhead (hreach.tail (leads_of_mem_arrivals ha))

theorem Loopless.notMem_heads (h : f.Loopless loc) : loc ∉ (Skeleton.ofFlow f).heads.toList :=
  fun hhead => h loc hhead .refl

/-! ## The plain recursion -/

/-- A place for each location, below which lie the sources of all edges but the back edges. -/
noncomputable def depth (f : FlowGraph) : Loc → Nat :=
  Classical.choose (Multigraph.exists_rank f.graph)

theorem Loopless.depth_lt (h : f.Loopless loc) {a : Loc × Stmt} (ha : a ∈ f.arrivals loc) :
    f.depth a.1 < f.depth loc := by
  have hrank := (Classical.choose_spec (Multigraph.exists_rank f.graph)).2
  refine (hrank a.1 loc (leads_of_mem_arrivals ha)).resolve_left fun hback => ?_
  exact h.notMem_heads (Skeleton.mem_heads.2 ⟨a.1, hback⟩)

/-- The state at a location outside loops, computed from the program alone: unconstrained if nothing
leads to it, and otherwise the join over the edges into it of what their statements make of the
states at their sources. -/
def naive (f : FlowGraph) (loc : Loc) (h : f.Loopless loc) : State :=
  if f.arrivals loc = [] then .top
  else
    .joinAll ((f.arrivals loc).attach.map fun a =>
      (f.naive a.1.1 (h.source a.2)).interpret a.1.2)
termination_by f.depth loc
decreasing_by exact h.depth_lt a.2

end FlowGraph

/-! ## Cells that solve the recursion -/

section Cells

variable {f f' : FlowGraph} {loc : Loc} {a : Loc × Stmt}

theorem Skeleton.mem_inputs_iff_arrivals (hedges : ∀ e, e ∈ f'.edges ↔ e ∈ f.edges) :
    a ∈ (ofFlow f').inputs loc ↔ a ∈ f.arrivals loc := by
  refine mem_inputs.trans (Iff.trans ?_ FlowGraph.mem_arrivals.symm)
  exact exists_congr fun e => and_congr_left' (hedges e)

/-- Outside loops a root is a location to which nothing leads. -/
theorem Skeleton.isRoot_iff_arrivals (hedges : ∀ e, e ∈ f'.edges ↔ e ∈ f.edges)
    (hfree : f'.Loopless loc) : (ofFlow f').isRoot loc = true ↔ f.arrivals loc = [] := by
  rw [isRoot_ofFlow, List.all_eq_true, List.eq_nil_iff_forall_not_mem]
  refine forall_congr' fun a => ?_
  rw [← mem_inputs_iff_arrivals hedges]
  refine imp_congr_right fun _ => iff_of_false (fun hback => ?_) id
  exact hfree.notMem_heads (mem_heads.2 ⟨a.1, isBack_iff.1 hback⟩)

/-- Where the cells are settled and no loop leads, they hold what the recursion computes from the
same edges.  The induction is on the place of the location in the order of the edges. -/
theorem Supports.iterate_eq_naive {c : Cells} {S : Loc → Prop}
    (hS : Supports (.ofFlow f') c ∅ S) (hc : ∀ x, (c.iterate x).Normal)
    (hedges : ∀ e, e ∈ f'.edges ↔ e ∈ f.edges) (hloc : S loc) (hfree : f.Loopless loc) :
    c.iterate loc = f.naive loc hfree := by
  induction hd : f.depth loc using Nat.strong_induction_on generalizing loc with
  | _ d ih =>
    obtain ⟨hsettled, hsources⟩ := (hS loc hloc).resolve_left (OrdSet.notMem_empty loc)
    have hfree' := hfree.congr hedges
    have hentering : c.iterate loc = (Skeleton.ofFlow f').entering c loc := by
      rw [← hsettled.update_eq, Skeleton.update, if_neg hfree'.notMem_heads]
    have hroot_iff := Skeleton.isRoot_iff_arrivals hedges hfree'
    rw [hentering, Skeleton.entering, Skeleton.start, FlowGraph.naive]
    by_cases hroot : (Skeleton.ofFlow f').isRoot loc = true
    · rw [if_pos hroot, if_pos (hroot_iff.1 hroot), Skeleton.forwardInputs_of_isRoot hroot]
      rfl
    · rw [if_neg hroot, if_neg (mt hroot_iff.2 hroot),
        (Skeleton.regular_ofFlow f').plain loc hfree'.notMem_heads, joinStates_eq_foldl]
      have hsource : ∀ a (ha : a ∈ f.arrivals loc),
          c.iterate a.1 = f.naive a.1 (hfree.source ha) := fun a ha =>
        ih _ (hd ▸ hfree.depth_lt ha)
          (hsources a ((Skeleton.mem_inputs_iff_arrivals hedges).2 ha)) (hfree.source ha) rfl
      -- the inputs come in another order than the edges, but the same states are joined
      refine State.joinAll_congr (normal_interpreted hc _) fun s => ?_
      simp only [List.mem_map, List.mem_attach, true_and, Subtype.exists]
      refine exists_congr fun a => ?_
      rw [Skeleton.mem_inputs_iff_arrivals hedges]
      constructor
      · rintro ⟨ha, rfl⟩
        exact ⟨ha, by rw [hsource a ha]⟩
      · rintro ⟨ha, rfl⟩
        exact ⟨ha, by rw [hsource a ha]⟩

end Cells

namespace DemandGraph

variable {g : DemandGraph} {loc : Loc}

/-! ## Demands outside loops -/

/-- A demand makes a location outside loops final, with the state that the recursion computes from
the same edges. -/
theorem Coherent.get_loopless (hc : g.Coherent) (hloc : loc ∈ g.flow.graph.nodes) {f : FlowGraph}
    (hedges : ∀ e, e ∈ g.flow.edges ↔ e ∈ f.edges) (hfree : f.Loopless loc) :
    (g.get (.state loc)).result = .ok (.state (f.naive loc hfree)) ∧
      (g.get (.state loc)).graph.isStable (.state loc) = true := by
  have hc' := hc.get (.state loc)
  obtain ⟨a, m, log, cell, hrun, ⟨hget, huse⟩, heq⟩ :=
    (g.serves_get (.state loc)).answered hc hloc
  rw [heq] at hc' ⊢
  -- a state that is not final would wait for a loop head that leads to it
  have hfinal : cell.isFinal = true := by
    by_contra hopen
    rw [Bool.not_eq_true] at hopen
    obtain ⟨k, -, hhead, -, hreach⟩ :=
      exists_awaited hc hrun hget (huse.resolve_left (by simp [hopen])) hopen
    rw [g.built] at hhead
    exact hfree.congr hedges k hhead hreach
  obtain ⟨S, hS, hSloc⟩ := hc'.supported loc cell hget hfinal
  have hS : Supports (.ofFlow g.flow) m.cells ∅ S := g.built ▸ hS
  have hvalue : cell.value = f.naive loc hfree := by
    rw [← hS.iterate_eq_naive hc'.normal_iterate hedges hSloc hfree]
    exact (Cells.iterate_of_get? hget).symm
  exact ⟨by rw [hvalue], isStable_iff.2 ⟨cell, hget, hfinal⟩⟩

/-- Where no loop leads, one demand makes the location stable and answers with the state that the
plain recursion computes from the program, whatever was demanded and edited before.  Any graph whose
program has the same edges gives the same answer. -/
theorem get_eq_naive (hg : g.Reached) (hloc : loc ∈ g.flow.graph.nodes)
    (hfree : g.flow.Loopless loc) :
    (g.get (.state loc)).result = .ok (.state (g.flow.naive loc hfree)) ∧
    (g.get (.state loc)).graph.isStable (.state loc) = true ∧
    ∀ g' : DemandGraph, g'.Reached → loc ∈ g'.flow.graph.nodes →
      (∀ e, e ∈ g'.flow.edges ↔ e ∈ g.flow.edges) →
      (g'.get (.state loc)).result = (g.get (.state loc)).result := by
  obtain ⟨hresult, hstable⟩ := hg.coherent.get_loopless hloc (fun _ => Iff.rfl) hfree
  refine ⟨hresult, hstable, fun g' hg' hloc' hedges => ?_⟩
  rw [hresult]
  exact (hg'.coherent.get_loopless hloc' hedges hfree).1

/-- Two statements side by side, a branch whose sides come together again, and a loop after it. -/
def branches : FlowGraph :=
  FlowGraph.empty
    |>.addEdge .entry (.id 0) (.assign "x" (Demo.number 12))
    |>.addEdge .entry (.id 0) (.assign "x" (Demo.number 15))
    |>.addEdge (.id 0) (.id 1) (Demo.guard .lt "x" 14)
    |>.addEdge (.id 0) (.id 2) .skip
    |>.addEdge (.id 1) (.id 3) (.assign "y" (.var "x"))
    |>.addEdge (.id 2) (.id 3) (.assign "y" (Demo.number 19))
    |>.addEdge (.id 3) (.id 4) .skip
    |>.addEdge (.id 4) (.id 4) (.assign "y" (.binary .add (.var "y") (Demo.number 11)))
    |>.addEdge (.id 4) .exit .skip

/-- The branch after a demand at the end, an insertion on one side and a demand inside the loop. -/
def editedBranches : DemandGraph :=
  ((((ofFlow branches).get (.state .exit)).graph.addStmtAt ⟨5⟩ (.id 1)
    (.assign "x" (Demo.number 17))).graph.get (.state (.id 4))).graph

/-- Where the sides come together, before the loop, the edited graph answers like the recursion and
like a graph that starts over. -/
theorem get_eq_naive_editedBranches :
    editedBranches.flow.loopHeads.toList = [.id 4] ∧
      ∃ hfree : editedBranches.flow.Loopless (.id 3),
        (editedBranches.flow.naive (.id 3) hfree).get "y" =
          .range (Word.ofInt? 17) (Word.ofInt? 19) ∧
        (editedBranches.get (.state (.id 3))).result =
          .ok (.state (editedBranches.flow.naive (.id 3) hfree)) ∧
        (editedBranches.get (.state (.id 3))).graph.isStable (.state (.id 3)) = true ∧
        ((ofFlow editedBranches.flow).get (.state (.id 3))).result =
          (editedBranches.get (.state (.id 3))).result := by
  have hfacts : editedBranches.flow.loopHeads.toList = [.id 4] ∧
      editedBranches.flow.Loopless (.id 3) ∧ Loc.id 3 ∈ editedBranches.flow.graph.nodes ∧
      (match (editedBranches.get (.state (.id 3))).result with
        | .ok (.state s) => decide (s.get "y" = .range (Word.ofInt? 17) (Word.ofInt? 19))
        | _ => false) = true := by
    decide +kernel
  obtain ⟨hheads, hfree, hloc, hvalue⟩ := hfacts
  have hreached : editedBranches.Reached :=
    .get _ (.addStmtAt _ _ _ (.get _ (.ofFlow branches)))
  obtain ⟨hresult, hstable, hsame⟩ := get_eq_naive hreached hloc hfree
  rw [hresult] at hvalue
  exact ⟨hheads, hfree, of_decide_eq_true hvalue, hresult, hstable,
    hsame _ (.ofFlow _) hloc fun _ => Iff.rfl⟩

end DemandGraph

end Demanded
