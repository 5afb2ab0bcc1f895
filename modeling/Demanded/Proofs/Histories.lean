import Demanded.DemandGraph.Rounds
import Demanded.Proofs.Insertion
import Demanded.Proofs.Support
import Demanded.Proofs.Termination

/-!
# Histories of demanded graphs

`DemandGraph.Reached` has the graphs that come from the graph of a program by demands, rounds of
demands and edits.  Rounds are made of single demands, so a property that demands and edits keep
holds of all of them (`Reached.invariant`).

`DemandGraph.Coherent` is such a property: between demands no loop head is being computed, states
are normal, and every final state is supported.  From it follow the equations that stable states
solve.
-/

namespace Demanded

namespace DemandGraph

/-- The graphs that demands and edits make of the graph of a program. -/
inductive Reached : DemandGraph → Prop
  | ofFlow (f : FlowGraph) : Reached (ofFlow f)
  | get {g : DemandGraph} (name : NodeName) (h : Reached g) : Reached (g.get name).graph
  | getStable {g : DemandGraph} (patience : Nat) (name : NodeName) (h : Reached g) :
      Reached (g.getStable patience name).graph
  | stateAt {g : DemandGraph} (patience : Nat) (loc : Loc) (h : Reached g) :
      Reached (g.stateAt patience loc).graph
  | fixpoint {g : DemandGraph} (patience : Nat) (targets : List Loc) (limit : Option Nat)
      (h : Reached g) : Reached (g.fixpoint patience targets limit).graph
  | dirty {g : DemandGraph} (loc : Loc) (h : Reached g) : Reached (g.dirty loc)
  | addStmtAt {g : DemandGraph} (supply : LocSupply) (loc : Loc) (stmt : Stmt) (h : Reached g) :
      Reached (g.addStmtAt supply loc stmt).graph

/-! ## Rounds are made of demands -/

section Rounds

variable {P : DemandGraph → Prop}

theorem graph_settle (hget : ∀ g name, P g → P (g.get name).graph) (name : NodeName)
    (fuel rounds : Nat) (events : Array Event) {g : DemandGraph} (h : P g) :
    P (settle name fuel rounds events g).graph := by
  induction fuel generalizing rounds events g with
  | zero => exact h
  | succ fuel ih =>
    rw [settle]
    split
    · exact hget g name h
    · split
      · exact hget g name h
      · exact ih _ _ (hget g name h)

theorem graph_demandAll (hget : ∀ g name, P g → P (g.get name).graph) (targets : List Loc)
    (events : Array Event) {g : DemandGraph} (h : P g) :
    P (demandAll targets events g).graph := by
  induction targets generalizing events g with
  | nil => exact h
  | cons loc rest ih =>
    rw [demandAll]
    split
    · exact ih _ h
    · dsimp only
      split
      · exact hget g _ h
      · exact ih _ (hget g _ h)

theorem graph_runRounds (hget : ∀ g name, P g → P (g.get name).graph) (targets : List Loc)
    (limited : Bool) (fuel : Nat) (history : List Snapshot) (events : Array Event)
    {g : DemandGraph} (h : P g) : P (runRounds targets limited fuel history events g).graph := by
  induction fuel generalizing history events g with
  | zero =>
    rw [runRounds]
    split <;> exact h
  | succ fuel ih =>
    have hround := graph_demandAll hget targets events h
    rw [runRounds]
    dsimp only
    split
    · exact hround
    · split
      · exact hround
      · exact ih _ _ hround

/-- What holds of the graph of a program and is kept by demands and edits holds of every graph that
is reached. -/
theorem Reached.invariant (hflow : ∀ f, P (.ofFlow f))
    (hget : ∀ g name, P g → P (g.get name).graph) (hdirty : ∀ g loc, P g → P (g.dirty loc))
    (hadd : ∀ g supply loc stmt, P g → P (g.addStmtAt supply loc stmt).graph)
    {g : DemandGraph} (h : Reached g) : P g := by
  induction h with
  | ofFlow f => exact hflow f
  | get name _ ih => exact hget _ name ih
  | getStable patience name _ ih => exact graph_settle hget name patience 0 #[] ih
  | stateAt patience loc _ ih => exact graph_settle hget (.state loc) patience 0 #[] ih
  | fixpoint patience targets limit _ ih => exact graph_runRounds hget targets _ _ [] #[] ih
  | dirty loc _ ih => exact hdirty _ loc ih
  | addStmtAt supply loc stmt _ ih => exact hadd _ supply loc stmt ih

end Rounds

/-! ## Coherence -/

/-- Between demands: no loop head is being computed, cells are of earlier passes, states are normal,
and final states are supported. -/
structure Coherent (g : DemandGraph) : Prop where
  idle : g.visiting = ∅
  pass_le : ∀ loc cell, g.cells.get? loc = some cell → cell.pass ≤ g.pass
  normal : ∀ loc cell, g.cells.get? loc = some cell → cell.value.Normal
  supported : ∀ loc cell, g.cells.get? loc = some cell → cell.isFinal = true →
    Supported g.skeleton g.cells ∅ loc

theorem isStable_iff {g : DemandGraph} {loc : Loc} :
    g.isStable (.state loc) = true ↔
      ∃ cell, g.cells.get? loc = some cell ∧ cell.isFinal = true :=
  Option.any_eq_true _ _

theorem cached?_eq_some {g : DemandGraph} {loc : Loc} {cell : Cell}
    (h : g.cells.get? loc = some cell) : g.cached? loc = some cell.value := by
  rw [cached?, h]
  rfl

theorem notMem_pending_of_isFinal {cell : Cell} (h : cell.isFinal = true) (x : Loc) :
    x ∉ cell.pending.toList :=
  OrdSet.isEmpty_iff.1 h x

theorem pending_of_isFinal {cell : Cell} (h : cell.isFinal = true) : cell.pending = ∅ :=
  OrdSet.ext_mem fun x =>
    ⟨fun hx => absurd hx (notMem_pending_of_isFinal h x),
      fun hx => absurd hx (OrdSet.notMem_empty x)⟩

namespace Coherent

variable {g : DemandGraph}

theorem isFinal_of_usable (h : g.Coherent) {loc : Loc} {cell : Cell}
    (hu : Cells.Usable g.cells (g.pass + 1) loc cell) : cell.isFinal = true := by
  have hle := h.pass_le loc cell hu.1
  exact hu.2.resolve_right (by omega)

theorem tracked (h : g.Coherent) : Tracked g.skeleton (g.pass + 1) g.visiting g.cells :=
  fun _ _ hu x hx => absurd hx (notMem_pending_of_isFinal (h.isFinal_of_usable hu) x)

theorem sustained (h : g.Coherent) :
    Sustained g.skeleton (g.pass + 1) g.visiting (fun _ => False) g.cells where
  normal := h.normal
  supported loc cell _ hu := by
    have hfinal := h.isFinal_of_usable hu
    rw [pending_of_isFinal hfinal]
    exact .inr (h.supported loc cell hu.1 hfinal)
  active _ hx := hx.elim

theorem notMem_visiting (h : g.Coherent) (x : Loc) : x ∉ g.visiting.toList := by
  rw [h.idle]
  exact OrdSet.notMem_empty x

theorem visiting_subset (h : g.Coherent) :
    ∀ x ∈ g.visiting.toList, x ∈ g.skeleton.heads.toList :=
  fun x hx => absurd hx (h.notMem_visiting x)

/-- A run of the next pass ends in a coherent graph. -/
theorem resume (h : g.Coherent) {task : Task} {a : Answer} {m : Memo} {log : List Loc}
    (hrun : Run g.skeleton (g.pass + 1) g.visiting task g.cells a m.cells log)
    (hvis : m.visiting = g.visiting) : (g.resume m).Coherent := by
  obtain ⟨T, hs, -⟩ := hrun.sustains g.regular h.visiting_subset h.tracked h.sustained
  refine ⟨hvis.trans h.idle, fun loc cell hget => ?_, hs.normal, fun loc cell hget hfinal => ?_⟩
  · show cell.pass ≤ g.pass + 1
    rcases hrun.pass_cases hget with hold | hnew
    · exact Nat.le_succ_of_le (h.pass_le loc cell hold)
    · exact Nat.le_of_eq hnew
  · rcases hs.supported loc cell (h.notMem_visiting loc) ⟨hget, .inl hfinal⟩ with ⟨x, hx, -⟩ | hsup
    · exact absurd hx (notMem_pending_of_isFinal hfinal x)
    · rwa [pending_of_isFinal hfinal] at hsup

theorem of_serves (h : g.Coherent) {name : NodeName} {out : Outcome Resolved}
    (hs : g.Serves name out) : out.graph.Coherent := by
  cases hs with
  | refused hname => exact h
  | stmt hname hloc => exact h
  | run hname hrun hreports => exact h.resume hrun hreports.visiting

theorem get (h : g.Coherent) (name : NodeName) : (g.get name).graph.Coherent :=
  h.of_serves (g.serves_get name)

end Coherent

/-- A demand for a location is answered from the cell that its run leaves there. -/
theorem Serves.answered {g : DemandGraph} {loc : Loc} {out : Outcome Resolved}
    (h : g.Serves (.state loc) out) (hc : g.Coherent) (hloc : loc ∈ g.flow.graph.nodes) :
    ∃ (a : Answer) (m : Memo) (log : List Loc) (cell : Cell),
      Run g.skeleton (g.pass + 1) g.visiting (.demand loc) g.cells a m.cells log ∧
      Cells.Usable m.cells (g.pass + 1) loc cell ∧
      out = ⟨.ok (.state cell.value), g.resume m, m.events⟩ := by
  cases h with
  | refused hname => exact absurd (state_mem_nodes.2 hloc) hname
  | stmt hname hne => exact absurd rfl (hne loc)
  | @run _ a m log hname hrun hreports =>
    have hidle := hc.notMem_visiting loc
    obtain ⟨hready, hreply⟩ := hrun.answered
    obtain ⟨cell, hu⟩ := hready.resolve_left hidle
    rw [reply_of_get? hidle hu.1] at hreply
    exact ⟨a, m, log, cell, hrun, hu, by rw [hreply]⟩

/-! ## Edits -/

/-- What supports a state in a part still does so when nothing changes in the part and no source of
the part lies outside it. -/
theorem supported_of_agreesAt {sk sk' : Skeleton} {c c' : Cells} {pending : OrdSet Loc}
    (keep : Loc → Prop) (hsk : ∀ x, keep x → sk.AgreesAt sk' x)
    (hclosed : ∀ x, keep x → ∀ input ∈ sk'.inputs x, keep input.1)
    (hcells : ∀ x, keep x → c'.get? x = c.get? x) {loc : Loc} (hloc : keep loc)
    (h : Supported sk c pending loc) : Supported sk' c' pending loc := by
  obtain ⟨S, hS, hSloc⟩ := h
  refine ⟨fun x => S x ∧ keep x, ?_, hSloc, hloc⟩
  rintro x ⟨hx, hk⟩
  refine (hS x hx).imp id fun ⟨hsettled, hin⟩ => ?_
  have hagree := hsk x hk
  have hiterate : ∀ y, keep y → c'.iterate y = c.iterate y := fun y hy =>
    Cells.iterate_eq_of_get? (hcells y hy)
  have hsources : ∀ input ∈ sk.inputs x, keep input.1 := by
    rw [hagree.inputs]
    exact hclosed x hk
  refine ⟨⟨?_, fun hhead => ?_⟩, fun input hmem => ?_⟩
  · rw [hiterate x hk, ← hsettled.update_eq, ← hagree.update]
    exact Skeleton.update_congr (fun input hmem => hiterate _ (hsources input hmem))
      fun _ => hiterate x hk
  · rw [hcells x hk]
    exact hsettled.seeded (hagree.heads.2 hhead)
  · rw [← hagree.inputs] at hmem
    exact ⟨hin input hmem, hsources input hmem⟩

theorem get?_filterKeys_cone (c : Cells) (cone : OrdSet Loc) (x : Loc) :
    (c.filterKeys fun l => !cone.contains l).get? x =
      if x ∈ cone.toList then none else c.get? x := by
  rw [OrdMap.get?_filterKeys]
  cases hx : cone.contains x with
  | true => rw [if_pos (OrdSet.contains_iff.1 hx)]; rfl
  | false => rw [if_neg (OrdSet.contains_eq_false.1 hx)]; rfl

/-- After a change of the program and of the cells, what is kept is coherent if nothing changes in
the part where it lies. -/
theorem Coherent.restrict {g g' : DemandGraph} (h : g.Coherent) (cone : OrdSet Loc)
    (hvis : g'.visiting = g.visiting) (hpass : g'.pass = g.pass)
    (hcells : g'.cells = g.cells.filterKeys fun l => !cone.contains l)
    (hcone : ∀ a b, g'.flow.graph.Leads a b → a ∈ cone.toList → b ∈ cone.toList)
    (hsk : ∀ x, x ∉ cone.toList → g.skeleton.AgreesAt g'.skeleton x) : g'.Coherent := by
  have hget : ∀ x cell, g'.cells.get? x = some cell →
      x ∉ cone.toList ∧ g.cells.get? x = some cell := by
    intro x cell hx
    rw [hcells, get?_filterKeys_cone] at hx
    split at hx
    · cases hx
    · rename_i hout
      exact ⟨hout, hx⟩
  refine ⟨hvis.trans h.idle, fun x cell hx => ?_, fun x cell hx => ?_, fun x cell hx hfinal => ?_⟩
  · rw [hpass]
    exact h.pass_le x cell (hget x cell hx).2
  · exact h.normal x cell (hget x cell hx).2
  · refine supported_of_agreesAt (fun x => x ∉ cone.toList) hsk ?_ ?_ (hget x cell hx).1
      (h.supported x cell (hget x cell hx).2 hfinal)
    · intro y hy input hmem hin
      exact hy (hcone _ _ (leads_of_mem_inputs hmem) hin)
    · intro y hy
      rw [hcells, get?_filterKeys_cone, if_neg hy]

theorem reachable_closed {f : FlowGraph} {start a b : Loc} (hab : f.graph.Leads a b)
    (ha : a ∈ (f.graph.reachable start).toList) : b ∈ (f.graph.reachable start).toList := by
  rw [Multigraph.mem_reachable] at ha ⊢
  exact ⟨ha.1, ha.2.tail hab⟩

theorem Coherent.dirty {g : DemandGraph} (h : g.Coherent) (loc : Loc) : (g.dirty loc).Coherent :=
  h.restrict (g.flow.graph.reachable loc) rfl rfl rfl (fun _ _ => reachable_closed)
    fun x _ => .refl _ x

/-- The graph after an insertion at one of its locations. -/
def edited (g : DemandGraph) (loc fresh : Loc) (stmt : Stmt) : DemandGraph :=
  (g.rebuild (g.flow.splice loc fresh stmt)).dirty fresh

/-- An insertion at a location of the program succeeds. -/
theorem addStmtAt_of_mem {g : DemandGraph} (supply : LocSupply) {loc : Loc} (stmt : Stmt)
    (hloc : loc ∈ g.flow.graph.nodes) :
    ∃ events, g.addStmtAt supply loc stmt =
      ⟨.ok supply.fresh, g.edited loc supply.fresh.1 stmt, events⟩ := by
  rw [DemandGraph.addStmtAt, FlowGraph.addStmtAt_of_mem stmt supply hloc]
  exact ⟨_, rfl⟩

/-- An insertion anywhere else is refused. -/
theorem addStmtAt_of_notMem {g : DemandGraph} (supply : LocSupply) {loc : Loc} (stmt : Stmt)
    (hloc : loc ∉ g.flow.graph.nodes) :
    g.addStmtAt supply loc stmt = ⟨.error (.unknownLocation loc), g, #[]⟩ := by
  rw [DemandGraph.addStmtAt, FlowGraph.addStmtAt_of_notMem stmt supply hloc]

theorem agreesAt_edited {g : DemandGraph} {loc fresh : Loc} (stmt : Stmt)
    (hloc : loc ∈ g.flow.graph.nodes) {x : Loc}
    (hx : x ∉ ((g.flow.splice loc fresh stmt).graph.reachable fresh).toList) :
    g.skeleton.AgreesAt (g.edited loc fresh stmt).skeleton x := by
  rw [g.built]
  exact FlowGraph.agreesAt_splice stmt hloc hx

theorem Coherent.addStmtAt {g : DemandGraph} (h : g.Coherent) (supply : LocSupply) (loc : Loc)
    (stmt : Stmt) : (g.addStmtAt supply loc stmt).graph.Coherent := by
  by_cases hloc : loc ∈ g.flow.graph.nodes
  · obtain ⟨events, heq⟩ := addStmtAt_of_mem supply stmt hloc
    rw [heq]
    exact h.restrict ((g.flow.splice loc _ stmt).graph.reachable _) rfl rfl rfl
      (fun _ _ => reachable_closed) fun x hx => agreesAt_edited stmt hloc hx
  · rw [addStmtAt_of_notMem supply stmt hloc]
    exact h

theorem coherent_ofFlow (f : FlowGraph) : (ofFlow f).Coherent where
  idle := rfl
  pass_le _ _ h := nomatch h
  normal _ _ h := nomatch h
  supported _ _ h := nomatch h

theorem Reached.coherent {g : DemandGraph} (h : Reached g) : g.Coherent :=
  h.invariant coherent_ofFlow (fun _ name h => h.get name) (fun _ loc h => h.dirty loc)
    fun _ supply loc stmt h => h.addStmtAt supply loc stmt

end DemandGraph

end Demanded
