import Demanded.Bounds.Demo
import Demanded.Proofs.Histories

/-!
# Stable states solve the program

Whatever demands and edits came before, the stable states of a demanded graph are a post-fixpoint of
its program: a root is unconstrained, and a statement between two stable locations leads from the
state at the first into the state at the second (`DemandGraph.stable_states_postfixed`).
-/

namespace Demanded

/-! ## Equations as inequalities -/

namespace Skeleton

variable {sk : Skeleton} {c : Cells} {loc : Loc}

/-- A state at an input of a location gets into the state that is computed there. -/
theorem implies_update (hsk : sk.Regular) (hc : ∀ x, (c.iterate x).Normal) {src : Loc}
    {stmt : Stmt} (h : (src, stmt) ∈ sk.inputs loc) :
    ((c.iterate src).interpret stmt).implies (sk.update c loc) = true := by
  have hs := State.normal_interpret (hc src) stmt
  have hforward : (src, stmt) ∈ sk.forwardInputs loc →
      ((c.iterate src).interpret stmt).implies (sk.entering c loc) = true := fun hmem =>
    implies_joinStates hc (normal_start sk loc) hs (.inr ⟨_, hmem, rfl⟩)
  unfold update
  split
  · -- what enters and what loops back both get into the widened state
    refine State.implies_trans hs ?_
      (State.implies_widen_right _ (State.normal_join (normal_entering hc) (normal_looping hc)))
    rcases mem_inputs_cases h with hmem | hmem
    · exact State.implies_trans hs (hforward hmem) (State.implies_join_left (normal_entering hc) _)
    · exact State.implies_trans hs
        (implies_joinStates hc State.normal_bottom hs (.inr ⟨_, hmem, rfl⟩))
        (State.implies_join_right _ (normal_looping hc))
  · rename_i hplain
    rw [← hsk.plain loc hplain] at h
    exact hforward h

/-- Execution may start at a root in any state. -/
theorem top_implies_update (hc : ∀ x, (c.iterate x).Normal) (h : sk.isRoot loc = true) :
    State.top.implies (sk.update c loc) = true := by
  have hentering : sk.entering c loc = .top := by
    rw [entering, forwardInputs_of_isRoot h, start, if_pos h]
    rfl
  unfold update
  rw [hentering]
  split
  · exact State.implies_trans State.normal_top (State.implies_join_left State.normal_top _)
      (State.implies_widen_right _ (State.normal_join State.normal_top (normal_looping hc)))
  · exact State.implies_refl _

end Skeleton

namespace DemandGraph

variable {g : DemandGraph}

theorem Coherent.normal_iterate (h : g.Coherent) (loc : Loc) :
    (Cells.iterate g.cells loc).Normal :=
  h.sustained.normal_iterate loc

/-- A stable location has the state that is computed from the cells. -/
theorem Coherent.update_eq (h : g.Coherent) {loc : Loc} {cell : Cell}
    (hget : g.cells.get? loc = some cell) (hfinal : cell.isFinal = true) :
    g.skeleton.update g.cells loc = cell.value := by
  obtain ⟨S, hS, hloc⟩ := h.supported loc cell hget hfinal
  rcases hS loc hloc with hmem | ⟨hsettled, -⟩
  · exact absurd hmem (OrdSet.notMem_empty loc)
  · rw [hsettled.update_eq, Cells.iterate_of_get? hget]

theorem Coherent.cached?_root (h : g.Coherent) {loc : Loc}
    (hstable : g.isStable (.state loc) = true)
    (hroot : ∀ e ∈ g.flow.edges, e.dst = loc → (e.src, loc) ∈ g.flow.backEdges) :
    g.cached? loc = some .top := by
  obtain ⟨cell, hget, hfinal⟩ := isStable_iff.1 hstable
  have hroot : g.skeleton.isRoot loc = true := g.built ▸ Skeleton.isRoot_iff.2 hroot
  have htop := Skeleton.top_implies_update h.normal_iterate hroot
  rw [h.update_eq hget hfinal] at htop
  rw [cached?_eq_some hget, State.eq_top_of_implies (h.normal loc cell hget) htop]

theorem Coherent.interpret_implies (h : g.Coherent) {e : Edge Loc Stmt} (he : e ∈ g.flow.edges)
    (hsrc : g.isStable (.state e.src) = true) (hdst : g.isStable (.state e.dst) = true) :
    ∃ s t, g.cached? e.src = some s ∧ g.cached? e.dst = some t ∧
      (s.interpret e.label).implies t = true := by
  obtain ⟨cell, hget, -⟩ := isStable_iff.1 hsrc
  obtain ⟨cell', hget', hfinal'⟩ := isStable_iff.1 hdst
  refine ⟨cell.value, cell'.value, cached?_eq_some hget, cached?_eq_some hget', ?_⟩
  have hinput : (e.src, e.label) ∈ g.skeleton.inputs e.dst :=
    g.built ▸ Skeleton.mem_inputs.2 ⟨e, he, rfl, rfl, rfl⟩
  have himp := Skeleton.implies_update g.regular h.normal_iterate hinput
  rwa [Cells.iterate_of_get? hget, h.update_eq hget' hfinal'] at himp

/-- Stable roots are unconstrained, and statements lead from stable states into stable states. -/
theorem stable_states_postfixed (hg : g.Reached) :
    (∀ loc, g.isStable (.state loc) = true →
      (∀ e ∈ g.flow.edges, e.dst = loc → (e.src, loc) ∈ g.flow.backEdges) →
      g.cached? loc = some .top) ∧
    ∀ e ∈ g.flow.edges, g.isStable (.state e.src) = true → g.isStable (.state e.dst) = true →
      ∃ s t, g.cached? e.src = some s ∧ g.cached? e.dst = some t ∧
        (s.interpret e.label).implies t = true :=
  ⟨fun _ hstable hroot => hg.coherent.cached?_root hstable hroot,
    fun _ he hsrc hdst => hg.coherent.interpret_implies he hsrc hdst⟩

/-- A loop that is demanded at its end, edited inside and demanded everywhere. -/
def editedLoop : DemandGraph :=
  ((((ofFlow Demo.safeLoop.flow).getStable 5 (.state .exit)).graph.addStmtAt ⟨4⟩ (.id 2)
    .skip).graph.everywhere 5 none).graph

/-- In the edited loop everything is stable, and every edge, the one that closes the loop included,
leads into the state at its end. -/
theorem stable_states_postfixed_editedLoop :
    (∀ loc ∈ editedLoop.flow.locs, editedLoop.isStable (.state loc) = true) ∧
      editedLoop.cached? .entry = some .top ∧
      (Loc.id 3, Loc.id 1) ∈ editedLoop.flow.edges.map (fun e => (e.src, e.dst)) ∧
      ∀ e ∈ editedLoop.flow.edges, ∃ s t, editedLoop.cached? e.src = some s ∧
        editedLoop.cached? e.dst = some t ∧ (s.interpret e.label).implies t = true := by
  have hreached : editedLoop.Reached :=
    .fixpoint _ _ _ (.addStmtAt _ _ _ (.getStable _ _ (.ofFlow _)))
  have hfacts : (∀ loc ∈ editedLoop.flow.locs, editedLoop.isStable (.state loc) = true) ∧
      Loc.entry ∈ editedLoop.flow.locs ∧ (∀ e ∈ editedLoop.flow.edges, e.dst ≠ .entry) ∧
      (Loc.id 3, Loc.id 1) ∈ editedLoop.flow.edges.map (fun e => (e.src, e.dst)) := by
    decide +kernel
  obtain ⟨hstable, hentry, hroot, hclosing⟩ := hfacts
  obtain ⟨hroots, hedges⟩ := stable_states_postfixed hreached
  refine ⟨hstable, hroots .entry (hstable _ hentry) fun e he hdst => absurd hdst (hroot e he),
    hclosing, fun e he => hedges e he ?_ ?_⟩
  · exact hstable _ (Multigraph.mem_sortedNodes.2 (editedLoop.flow.graph.src_mem e he))
  · exact hstable _ (Multigraph.mem_sortedNodes.2 (editedLoop.flow.graph.dst_mem e he))

end DemandGraph

end Demanded
