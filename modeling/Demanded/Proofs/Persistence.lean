import Demanded.Proofs.Convergence
import Demanded.Proofs.Grounding

/-!
# Stable states persist

A location that is no loop head is not marked while it is being computed, so its state may be
computed again below itself.  But a run never replaces a cell that could be used when it began, and
a final cell can always be used (`Run.frame`).  So a stable state stays as it is, and a demand for
it finds its cell (`DemandGraph.Coherent.get_final`).  A loop head is widened from the state that it
had, so its states ascend.

The main result is `DemandGraph.stable_states_kept`, about any further demands.
-/

namespace Demanded.DemandGraph

variable {g g₁ g₂ : DemandGraph}

/-! ## Further demands -/

/-- The graphs that further demands make of a graph. -/
inductive Continues (g : DemandGraph) : DemandGraph → Prop
  | refl : Continues g g
  | get {g' : DemandGraph} (name : NodeName) (h : Continues g g') : Continues g (g'.get name).graph
  | getStable {g' : DemandGraph} (patience : Nat) (name : NodeName) (h : Continues g g') :
      Continues g (g'.getStable patience name).graph
  | stateAt {g' : DemandGraph} (patience : Nat) (loc : Loc) (h : Continues g g') :
      Continues g (g'.stateAt patience loc).graph
  | fixpoint {g' : DemandGraph} (patience : Nat) (targets : List Loc) (limit : Option Nat)
      (h : Continues g g') : Continues g (g'.fixpoint patience targets limit).graph

/-- What single demands keep, further demands keep. -/
theorem Continues.invariant {P : DemandGraph → Prop}
    (hget : ∀ g name, P g → P (g.get name).graph) (h : g.Continues g₁) (hg : P g) : P g₁ := by
  induction h with
  | refl => exact hg
  | get name _ ih => exact hget _ name ih
  | getStable patience name _ ih => exact graph_settle hget name patience 0 #[] ih
  | stateAt patience loc _ ih => exact graph_settle hget (.state loc) patience 0 #[] ih
  | fixpoint patience targets limit _ ih => exact graph_runRounds hget targets _ _ [] #[] ih

/-! ## What they keep -/

/-- The program stays and so do final cells; loop heads keep having states, which ascend. -/
structure Keeps (g g' : DemandGraph) : Prop where
  flow : g'.flow = g.flow
  final : ∀ loc cell, g.cells.get? loc = some cell → cell.isFinal = true →
    g'.cells.get? loc = some cell
  ascends : ∀ h ∈ g.flow.loopHeads.toList, ∀ s, g.cached? h = some s →
    ∃ t, g'.cached? h = some t ∧ s.implies t = true

theorem Keeps.refl (g : DemandGraph) : g.Keeps g :=
  ⟨rfl, fun _ _ h _ => h, fun _ _ s hs => ⟨s, hs, State.implies_refl s⟩⟩

theorem Keeps.trans (hc : g.Coherent) (h : g.Keeps g₁) (h' : g₁.Keeps g₂) : g.Keeps g₂ where
  flow := h'.flow.trans h.flow
  final loc cell hget hfinal := h'.final loc cell (h.final loc cell hget hfinal) hfinal
  ascends x hx s hs := by
    obtain ⟨t, ht, hst⟩ := h.ascends x hx s hs
    obtain ⟨r, hr, htr⟩ := h'.ascends x (h.flow ▸ hx) t ht
    obtain ⟨cell, hcell, rfl⟩ := Option.map_eq_some_iff.1 hs
    exact ⟨r, hr, State.implies_trans (hc.normal x cell hcell) hst htr⟩

/-- What a run does to the cell of a loop head: its state stays or is widened. -/
theorem Coherent.ascends_run (hc : g.Coherent) {task : Task} {a : Answer} {c : Cells}
    {log : List Loc} (hrun : Run g.skeleton (g.pass + 1) g.visiting task g.cells a c log)
    {h : Loc} (hh : h ∈ g.skeleton.heads.toList) {s : State} (hs : g.cached? h = some s) :
    ∃ t, c.value? h = some t ∧ s.implies t = true := by
  obtain ⟨old, hold, rfl⟩ := Option.map_eq_some_iff.1 hs
  rcases hrun.headStep hh (hc.notMem_visiting h) with heq | ⟨new, hget, -, -, hnew⟩
  · refine ⟨old.value, ?_, State.implies_refl _⟩
    rw [Cells.value?, heq, hold]
    rfl
  · obtain ⟨⟨t, ht⟩, -⟩ := hnew old hold
    refine ⟨new.value, ?_, ?_⟩
    · rw [Cells.value?, hget]
      rfl
    · rw [ht]
      exact State.implies_widen_left (hc.normal h old hold) t

theorem Coherent.keeps_get (hc : g.Coherent) (name : NodeName) : g.Keeps (g.get name).graph := by
  have hserves := g.serves_get name
  generalize g.get name = out at hserves ⊢
  cases hserves with
  | refused hname => exact .refl g
  | stmt hname hloc => exact .refl g
  | run hname hrun hreports =>
    refine ⟨rfl, fun loc cell hget hfinal => hrun.frame.usable loc cell ⟨hget, .inl hfinal⟩, ?_⟩
    intro h hh s hs
    have hheads : g.skeleton.heads = g.flow.loopHeads := congrArg Skeleton.heads g.built
    exact hc.ascends_run hrun (hheads ▸ hh) hs

theorem Continues.coherent_keeps (hc : g.Coherent) (h : g.Continues g₁) :
    g₁.Coherent ∧ g.Keeps g₁ :=
  h.invariant (P := fun g' => g'.Coherent ∧ g.Keeps g')
    (fun _ name h => ⟨h.1.get name, .trans hc h.2 (h.1.keeps_get name)⟩) ⟨hc, .refl g⟩

/-! ## Demands for stable locations -/

/-- A demand for a stable location is answered from its cell. -/
theorem Coherent.get_final (hc : g.Coherent) {loc : Loc} (hloc : loc ∈ g.flow.graph.nodes)
    {cell : Cell} (hget : g.cells.get? loc = some cell) (hfinal : cell.isFinal = true) :
    (g.get (.state loc)).result = .ok (.state cell.value) ∧
      (g.get (.state loc)).graph.cells = g.cells ∧
      (g.get (.state loc)).graph.stats = { g.stats with hits := g.stats.hits + 1 } := by
  have hidle : g.visiting.contains loc = false :=
    OrdSet.contains_eq_false.2 (hc.notMem_visiting loc)
  have husable : (g.memo.note (.demandStarts 0 loc)).usable? (g.pass + 1) loc = some cell :=
    Memo.usable?_eq_some_iff.2 ⟨hget, .inl hfinal⟩
  have hdemand : g.skeleton.demand (g.pass + 1) g.allowance 0 loc g.memo =
      (.ok ⟨cell.value, cell.pending⟩, (((g.memo.note (.demandStarts 0 loc)).note
        (.cellUsed 0)).countHit).note (.demandEnds 0 loc)) := by
    rw [allowance, Skeleton.demand, if_neg (by simp [Memo.note, memo, hidle]), husable]
  rw [DemandGraph.get, if_pos (FlowGraph.contains_iff.2 hloc), getState, hdemand]
  exact ⟨rfl, rfl, rfl⟩

/-- Whatever is demanded next, at whatever names: a stable location stays stable with the same
state, and a demand for it answers with that state, counts one more hit and changes no cell and no
other counter.  The states of loop heads ascend. -/
theorem stable_states_kept (hg : g.Reached) (h : g.Continues g₁) :
    (∀ loc, g.isStable (.state loc) = true → ∃ s, g.cached? loc = some s ∧
      g₁.isStable (.state loc) = true ∧ g₁.cached? loc = some s ∧
      (g₁.get (.state loc)).result = .ok (.state s) ∧
      (g₁.get (.state loc)).graph.cells = g₁.cells ∧
      (g₁.get (.state loc)).graph.stats = { g₁.stats with hits := g₁.stats.hits + 1 }) ∧
    ∀ head ∈ g.flow.loopHeads.toList, ∀ s, g.cached? head = some s →
      ∃ t, g₁.cached? head = some t ∧ s.implies t = true := by
  obtain ⟨hc, hkeeps⟩ := h.coherent_keeps hg.coherent
  refine ⟨fun loc hstable => ?_, hkeeps.ascends⟩
  obtain ⟨cell, hget, hfinal⟩ := isStable_iff.1 hstable
  have hget₁ := hkeeps.final loc cell hget hfinal
  have hloc : loc ∈ g₁.flow.graph.nodes := by
    rw [hkeeps.flow]
    exact hg.mem_nodes (by rw [hget]; rfl)
  exact ⟨cell.value, cached?_eq_some hget, isStable_iff.2 ⟨cell, hget₁, hfinal⟩,
    cached?_eq_some hget₁, hc.get_final hloc hget₁ hfinal⟩

/-- A loop in which `x` follows `y`, one round behind. -/
def laggingLoop : FlowGraph :=
  FlowGraph.empty
    |>.addEdge .entry (.id 0) (.assign "x" (Demo.number 9))
    |>.addEdge (.id 0) (.id 1) (.assign "y" (Demo.number 9))
    |>.addEdge (.id 1) (.id 2) (.assign "x" (.var "y"))
    |>.addEdge (.id 2) (.id 1) (.assign "y" (.binary .add (.var "y") (Demo.number 10)))
    |>.addEdge (.id 1) .exit .skip

/-- The loop after one demand at the end. -/
def demandedOnce : DemandGraph := ((ofFlow laggingLoop).get (.state .exit)).graph

/-- The loop after further demands, at the end and everywhere. -/
def demandedOn : DemandGraph :=
  ((demandedOnce.getStable 6 (.state .exit)).graph.everywhere 6 none).graph

/-- Before the loop a state is kept, and at the head of the loop it ascends. -/
theorem stable_states_kept_laggingLoop :
    demandedOnce.isStable (.state (.id 0)) = true ∧ demandedOn.isStable (.state (.id 0)) = true ∧
      (demandedOn.get (.state (.id 0))).graph.cells = demandedOn.cells ∧
      ∃ s t, demandedOnce.cached? (.id 1) = some s ∧ demandedOn.cached? (.id 1) = some t ∧
        s ≠ t ∧ s.implies t = true := by
  have hfacts : demandedOnce.isStable (.state (.id 0)) = true ∧
      Loc.id 1 ∈ demandedOnce.flow.loopHeads.toList ∧
      (demandedOnce.cached? (.id 1)).isSome = true ∧
      demandedOn.cached? (.id 1) ≠ demandedOnce.cached? (.id 1) := by
    decide +kernel
  obtain ⟨hbefore, hhead, hsome, hne⟩ := hfacts
  have hon : demandedOnce.Continues demandedOn := .fixpoint _ _ _ (.getStable _ _ .refl)
  obtain ⟨hstable, hascends⟩ := stable_states_kept (.get _ (.ofFlow laggingLoop)) hon
  obtain ⟨-, -, hbefore₁, -, -, hcells, -⟩ := hstable (.id 0) hbefore
  obtain ⟨s, hs⟩ := Option.isSome_iff_exists.1 hsome
  obtain ⟨t, ht, himplies⟩ := hascends (.id 1) hhead s hs
  refine ⟨hbefore, hbefore₁, hcells, s, t, hs, ht, ?_, himplies⟩
  rintro rfl
  exact hne (ht.trans hs.symm)

end Demanded.DemandGraph
