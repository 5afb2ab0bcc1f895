import Demanded.Proofs.Convergence
import Demanded.Proofs.Grounding

/-!
# Edits are local

An insertion drops the states of the locations that the fresh one reaches, and keeps the others as
they are.  What is kept lies in a part of the program that no edge enters, and in this part nothing
changes: neither the statements that lead to a location, nor which of them come along back edges,
although the search for back edges runs on the whole program again.
-/

namespace Demanded.DemandGraph

variable {g : DemandGraph}

section Cells

variable {loc fresh : Loc} (stmt : Stmt)

theorem get?_edited (hloc : loc ∈ g.flow.graph.nodes) {x : Loc}
    (hx : ¬(g.edited loc fresh stmt).flow.graph.Reaches fresh x) :
    (g.edited loc fresh stmt).cells.get? x = g.cells.get? x := by
  refine (get?_filterKeys_cone g.cells _ x).trans (if_neg fun hin => hx ?_)
  exact (FlowGraph.mem_reachable_fresh stmt hloc).1 hin

theorem get?_edited_of_reaches (hloc : loc ∈ g.flow.graph.nodes) {x : Loc}
    (hx : (g.edited loc fresh stmt).flow.graph.Reaches fresh x) :
    (g.edited loc fresh stmt).cells.get? x = none := by
  refine (get?_filterKeys_cone g.cells _ x).trans (if_pos ?_)
  exact (FlowGraph.mem_reachable_fresh stmt hloc).2 hx

/-- A state that is kept is as before. -/
theorem get?_edited_of_isSome (hloc : loc ∈ g.flow.graph.nodes) {x : Loc}
    (hx : ((g.edited loc fresh stmt).cells.get? x).isSome = true) :
    (g.edited loc fresh stmt).cells.get? x = g.cells.get? x := by
  refine get?_edited stmt hloc fun hreaches => ?_
  rw [get?_edited_of_reaches stmt hloc hreaches] at hx
  cases hx

end Cells

/-- An insertion at a location of the program succeeds.  It drops exactly the states of the
locations that the fresh one reaches in the new program, and it keeps states together with those at
their sources.  Where the fresh location does not lead, the incoming statements, the back edges
among them, and whether the location is a loop head or a root are as before. -/
theorem addStmtAt_local (hg : g.Reached) (supply : LocSupply) {loc : Loc} (stmt : Stmt)
    (hloc : loc ∈ g.flow.graph.nodes) :
    ∃ g' events, g.addStmtAt supply loc stmt = ⟨.ok supply.fresh, g', events⟩ ∧
      g.flow.addStmtAt supply loc stmt = .ok (supply.fresh.1, g'.flow, supply.fresh.2) ∧
      (∀ x, g'.flow.graph.Reaches supply.fresh.1 x → g'.cells.get? x = none) ∧
      (∀ x, ¬g'.flow.graph.Reaches supply.fresh.1 x →
        g'.cells.get? x = g.cells.get? x ∧ g'.isStable (.state x) = g.isStable (.state x)) ∧
      (∀ e ∈ g'.flow.edges, (g'.cells.get? e.dst).isSome = true →
        (g'.cells.get? e.src).isSome = true ∧ g'.cells.get? e.src = g.cells.get? e.src) ∧
      ∀ x, ¬g'.flow.graph.Reaches supply.fresh.1 x →
        (g'.flow.arrivals x).Perm (g.flow.arrivals x) ∧
        (∀ src, (src, x) ∈ g'.flow.backEdges ↔ (src, x) ∈ g.flow.backEdges) ∧
        (x ∈ g'.flow.loopHeads.toList ↔ x ∈ g.flow.loopHeads.toList) ∧
        g'.skeleton.isRoot x = g.skeleton.isRoot x := by
  obtain ⟨events, heq⟩ := addStmtAt_of_mem supply stmt hloc
  have hreached := Reached.addStmtAt supply loc stmt hg
  rw [heq] at hreached
  refine ⟨_, events, heq, FlowGraph.addStmtAt_of_mem stmt supply hloc,
    fun x hx => get?_edited_of_reaches stmt hloc hx, fun x hx => ?_, fun e he hsome => ?_,
    fun x hx => ?_⟩
  · have hsame := get?_edited stmt hloc hx
    exact ⟨hsame, by rw [isStable, isStable, hsame]⟩
  · have hsrc := hreached.isSome_source he hsome
    exact ⟨hsrc, get?_edited_of_isSome stmt hloc hsrc⟩
  · have hout := fun hin => hx ((FlowGraph.mem_reachable_fresh stmt hloc).1 hin)
    have hagrees := agreesAt_edited stmt hloc hout
    refine ⟨.of_eq (FlowGraph.arrivals_splice stmt hloc hout), fun src => ?_, ?_,
      hagrees.isRoot.symm⟩
    · have hback := hagrees.isBack src
      rw [g.built] at hback
      exact Skeleton.isBack_iff.symm.trans (hback ▸ Skeleton.isBack_iff)
    · have hheads := hagrees.heads
      rw [g.built] at hheads
      exact hheads.symm

/-- Two loops in a row, with all states stable. -/
def settledLoops : DemandGraph := ((ofFlow twoLoops).everywhere 6 none).graph

/-- An insertion before the second of two loops keeps the stable state at the head of the first one
and drops the one inside the second. -/
theorem addStmtAt_local_twoLoops :
    settledLoops.isStable (.state (.id 2)) = true ∧
      ∃ g' events, settledLoops.addStmtAt ⟨3⟩ (.id 1) .skip = ⟨.ok (.id 3, ⟨4⟩), g', events⟩ ∧
        g'.cells.get? (.id 0) = settledLoops.cells.get? (.id 0) ∧
        g'.isStable (.state (.id 0)) = true ∧ Loc.id 0 ∈ g'.flow.loopHeads.toList ∧
        g'.cells.get? (.id 2) = none := by
  have hfacts : settledLoops.isStable (.state (.id 2)) = true ∧
      settledLoops.isStable (.state (.id 0)) = true ∧ Loc.id 1 ∈ twoLoops.graph.nodes ∧
      Loc.id 0 ∈ twoLoops.loopHeads.toList ∧
      Loc.id 2 ∈ ((twoLoops.splice (.id 1) (.id 3) .skip).graph.reachable (.id 3)).toList ∧
      Loc.id 0 ∉ ((twoLoops.splice (.id 1) (.id 3) .skip).graph.reachable (.id 3)).toList := by
    decide +kernel
  obtain ⟨hsecond, hfirst, hloc, hhead, hin, hout⟩ := hfacts
  have hflow : settledLoops.flow = twoLoops :=
    graph_runRounds (P := fun g => g.flow = twoLoops)
      (fun g name h => (g.serves_get name).flow.trans h) _ _ _ _ _ rfl
  obtain ⟨g', events, heq, hnew, hdropped, hkept, -, hsame⟩ :=
    addStmtAt_local (g := settledLoops) (.fixpoint _ _ _ (.ofFlow twoLoops)) ⟨3⟩ .skip
      (hflow ▸ hloc)
  rw [hflow, FlowGraph.addStmtAt_of_mem .skip ⟨3⟩ hloc] at hnew
  injection hnew with hnew
  injection hnew with _ hnew
  injection hnew with hnew _
  rw [FlowGraph.mem_reachable_fresh .skip hloc] at hin hout
  rw [← hnew] at hdropped hkept hsame
  obtain ⟨hcells, hstable⟩ := hkept (.id 0) hout
  refine ⟨hsecond, g', events, heq, hcells, hstable.trans hfirst, ?_, hdropped (.id 2) hin⟩
  rw [← hnew, (hsame (.id 0) hout).2.2.1, hflow]
  exact hhead

end Demanded.DemandGraph
