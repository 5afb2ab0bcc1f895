import Demanded.Proofs.InsertedPaths
import Demanded.Proofs.Mentions
import Demanded.Proofs.Persistence

/-!
# Insertions never reuse a location

A program is edited in two places, its flow graph and the demanded graph made of it, and both take
their locations from one supply.  `Workspace` has the three together.  Whatever is done in it, every
numbered location of either graph was handed out before (`Workspace.Bounded`): loading hands out the
locations of all labels that have a number, and an insertion adds the location that it takes.
-/

namespace Demanded

/-! ## Locations that were handed out -/

namespace FlowGraph

variable {f : FlowGraph} {supply : LocSupply} {loc fresh : Loc}

/-- The numbered locations of a flow graph were handed out. -/
def Below (f : FlowGraph) (supply : LocSupply) : Prop :=
  ∀ n, Loc.id n ∈ f.graph.nodes → n < supply.next

theorem Below.fresh_notMem (h : f.Below supply) : supply.fresh.1 ∉ f.graph.nodes :=
  fun hmem => Nat.lt_irrefl _ (h supply.next hmem)

theorem Below.succ (h : f.Below supply) : f.Below supply.fresh.2 :=
  fun n hn => Nat.lt_succ_of_lt (h n hn)

theorem Below.splice (h : f.Below supply) (stmt : Stmt) (hloc : loc ∈ f.graph.nodes) :
    (f.splice loc supply.fresh.1 stmt).Below supply.fresh.2 := by
  intro n hn
  rcases (mem_nodes_splice stmt hloc).1 hn with hold | hnew
  · exact h.succ n hold
  · cases hnew
    exact Nat.lt_succ_self _

/-- A flow graph of loaded functions has the locations of labels only. -/
theorem below_of_load {source : SourceProgram} {program : Program}
    (h : (source.load supply).result = .ok program) :
    program.flow.Below (source.load supply).supply := by
  obtain ⟨s, hs, rfl, hsupply⟩ := holds_of_load h
  intro n hn
  obtain ⟨l, -, hl⟩ := (hs.nodes (.id n)).1 hn
  obtain ⟨hlt, -⟩ := List.getElem?_eq_some_iff.1 ((hs.claimed.numbers.id l n).1 hl)
  rwa [hsupply, hs.claimed.supply]

theorem numLocs_splice (stmt : Stmt) (hloc : loc ∈ f.graph.nodes) (hfresh : fresh ∉ f.graph.nodes) :
    (f.splice loc fresh stmt).numLocs = f.numLocs + 1 := by
  have hperm : (f.splice loc fresh stmt).graph.nodes.Perm (fresh :: f.graph.nodes) := by
    refine (List.perm_ext_iff_of_nodup (f.splice loc fresh stmt).graph.nodup
      (List.nodup_cons.2 ⟨hfresh, f.graph.nodup⟩)).2 fun x => ?_
    rw [mem_nodes_splice stmt hloc, List.mem_cons, or_comm]
  exact hperm.length_eq

theorem numEdges_splice (stmt : Stmt) (hloc : loc ∈ f.graph.nodes) :
    (f.splice loc fresh stmt).numEdges = f.numEdges + 1 := by
  show (f.splice loc fresh stmt).edges.length = f.edges.length + 1
  rw [edges_splice hloc, List.length_append, List.length_map, List.length_singleton]

end FlowGraph

/-! ## Edits in two places -/

/-- Where an edit is made. -/
inductive Side where
  | flow
  | graph

/-- A flow graph and a demanded graph that are edited with one supply of locations. -/
structure Workspace where
  supply : LocSupply
  flow : FlowGraph
  graph : DemandGraph

namespace Workspace

/-- The program on one side. -/
def side (w : Workspace) : Side → FlowGraph
  | .flow => w.flow
  | .graph => w.graph.flow

/-- Inserts a statement on one side.  The answer has the fresh location. -/
def edit (w : Workspace) (side : Side) (loc : Loc) (stmt : Stmt) :
    Except Failure Loc × Workspace :=
  match side with
  | .flow =>
    match w.flow.addStmtAt w.supply loc stmt with
    | .error e => (.error e, w)
    | .ok (fresh, flow, supply) => (.ok fresh, { w with supply := supply, flow := flow })
  | .graph =>
    let out := w.graph.addStmtAt w.supply loc stmt
    match out.result with
    | .error e => (.error e, { w with graph := out.graph })
    | .ok (fresh, supply) => (.ok fresh, { w with supply := supply, graph := out.graph })

/-- A loaded program, with no states demanded. -/
def ofProgram (program : Program) (supply : LocSupply) : Workspace :=
  ⟨supply, program.flow, .ofFlow program.flow⟩

/-- What can be done: an edit that may fail, demands, and making one side anew from the other. -/
inductive Step : Workspace → Workspace → Prop
  | edit (w : Workspace) (side : Side) (loc : Loc) (stmt : Stmt) :
      Step w (w.edit side loc stmt).2
  | demand (w : Workspace) {g : DemandGraph} (h : w.graph.Continues g) :
      Step w { w with graph := g }
  | dirty (w : Workspace) (loc : Loc) : Step w { w with graph := w.graph.dirty loc }
  | build (w : Workspace) : Step w { w with graph := .ofFlow w.flow }
  | take (w : Workspace) : Step w { w with flow := w.graph.flow }

/-- What can be done, one after the other. -/
def Leads : Workspace → Workspace → Prop := Relation.ReflTransGen Step

variable {w w' : Workspace} {side : Side} {loc : Loc}

/-- An edit at a location of its side succeeds, and the other side stays. -/
theorem edit_of_mem (stmt : Stmt) (hloc : loc ∈ (w.side side).graph.nodes) :
    ∃ w', w.edit side loc stmt = (.ok w.supply.fresh.1, w') ∧ w'.supply = w.supply.fresh.2 ∧
      w'.side side = (w.side side).splice loc w.supply.fresh.1 stmt ∧
      ∀ other, other ≠ side → w'.side other = w.side other := by
  cases side with
  | flow =>
    have hadd := FlowGraph.addStmtAt_of_mem (f := w.flow) stmt w.supply hloc
    rw [edit, hadd]
    refine ⟨_, rfl, rfl, rfl, fun other hother => ?_⟩
    cases other with
    | flow => exact absurd rfl hother
    | graph => rfl
  | graph =>
    obtain ⟨events, heq⟩ := DemandGraph.addStmtAt_of_mem w.supply stmt hloc
    rw [edit, heq]
    refine ⟨_, rfl, rfl, rfl, fun other hother => ?_⟩
    cases other with
    | flow => rfl
    | graph => exact absurd rfl hother

/-- An edit anywhere else fails and changes nothing. -/
theorem edit_of_notMem (stmt : Stmt) (hloc : loc ∉ (w.side side).graph.nodes) :
    w.edit side loc stmt = (.error (.unknownLocation loc), w) := by
  cases side with
  | flow => rw [edit, FlowGraph.addStmtAt_of_notMem (f := w.flow) stmt w.supply hloc]
  | graph => rw [edit, DemandGraph.addStmtAt_of_notMem (g := w.graph) w.supply stmt hloc]

/-! ## What every step keeps -/

/-- On both sides, the numbered locations were handed out. -/
def Bounded (w : Workspace) : Prop := ∀ side, (w.side side).Below w.supply

theorem Bounded.edit (h : w.Bounded) (side : Side) (loc : Loc) (stmt : Stmt) :
    (w.edit side loc stmt).2.Bounded := by
  by_cases hloc : loc ∈ (w.side side).graph.nodes
  · obtain ⟨w', heq, hsupply, hside, hothers⟩ := edit_of_mem stmt hloc
    rw [heq]
    intro other
    rw [hsupply]
    by_cases hother : other = side
    · rw [hother, hside]
      exact (h side).splice stmt hloc
    · rw [hothers other hother]
      exact (h other).succ
  · rwa [edit_of_notMem stmt hloc]

theorem flow_of_continues {g g' : DemandGraph} (h : g.Continues g') : g'.flow = g.flow :=
  h.invariant (P := fun g' => g'.flow = g.flow)
    (fun g' name hflow => (g'.serves_get name).flow.trans hflow) rfl

theorem Step.bounded (h : Step w w') (hw : w.Bounded) : w'.Bounded := by
  cases h with
  | edit side loc stmt => exact hw.edit side loc stmt
  | @demand g hdemand =>
    rintro (_ | _)
    · exact hw .flow
    · show g.flow.Below w.supply
      rw [flow_of_continues hdemand]
      exact hw .graph
  | dirty loc =>
    rintro (_ | _)
    · exact hw .flow
    · exact hw .graph
  | build =>
    rintro (_ | _) <;> exact hw .flow
  | take =>
    rintro (_ | _) <;> exact hw .graph

theorem Leads.bounded (h : w.Leads w') (hw : w.Bounded) : w'.Bounded := by
  induction h with
  | refl => exact hw
  | tail _ hstep ih => exact hstep.bounded ih

theorem bounded_ofProgram {source : SourceProgram} {supply : LocSupply} {program : Program}
    (h : (source.load supply).result = .ok program) :
    (ofProgram program (source.load supply).supply).Bounded := by
  rintro (_ | _) <;> exact FlowGraph.below_of_load h

/-- After any edits and demands on a loaded program, every numbered location on either side is below
the number of those handed out.  An edit at a location of its side succeeds with the next number,
which neither side has; its side grows by this location and by one edge, and the other side stays.
An edit anywhere else fails, and both sides, the states kept and the supply stay. -/
theorem edits_take_fresh_locations {source : SourceProgram} {supply : LocSupply}
    {program : Program} (hload : (source.load supply).result = .ok program) {w : Workspace}
    (hrun : (ofProgram program (source.load supply).supply).Leads w) :
    (∀ side n, Loc.id n ∈ (w.side side).graph.nodes → n < w.supply.next) ∧
      ∀ side loc stmt,
        (loc ∈ (w.side side).graph.nodes →
          ∃ w', w.edit side loc stmt = (.ok (.id w.supply.next), w') ∧
            w'.supply.next = w.supply.next + 1 ∧
            (∀ other, Loc.id w.supply.next ∉ (w.side other).graph.nodes) ∧
            Loc.id w.supply.next ∈ (w'.side side).graph.nodes ∧
            (w'.side side).numLocs = (w.side side).numLocs + 1 ∧
            (w'.side side).numEdges = (w.side side).numEdges + 1 ∧
            ∀ other, other ≠ side → w'.side other = w.side other) ∧
        (loc ∉ (w.side side).graph.nodes →
          w.edit side loc stmt = (.error (.unknownLocation loc), w)) := by
  have hw := hrun.bounded (bounded_ofProgram hload)
  refine ⟨hw, fun side loc stmt => ⟨fun hloc => ?_, edit_of_notMem stmt⟩⟩
  obtain ⟨w', heq, hsupply, hside, hothers⟩ := edit_of_mem stmt hloc
  refine ⟨w', heq, by rw [hsupply]; rfl, fun other => (hw other).fresh_notMem, ?_, ?_, ?_, hothers⟩
  · rw [hside]
    exact (FlowGraph.mem_nodes_splice stmt hloc).2 (.inr rfl)
  · rw [hside, FlowGraph.numLocs_splice stmt hloc (hw side).fresh_notMem]
  · rw [hside, FlowGraph.numEdges_splice stmt hloc]

/-- A program with one loop. -/
def spin : SourceProgram :=
  ⟨[{ name := "main"
      formals := []
      entry := "entry"
      exit := "exit"
      edges := [⟨"entry", "again", .skip⟩, ⟨"again", "again", .skip⟩, ⟨"again", "exit", .skip⟩] }]⟩

/-- The program `spin` with locations. -/
def spinLoaded : Program where
  flow := FlowGraph.empty
    |>.addEdge .entry (.id 0) .skip
    |>.addEdge (.id 0) (.id 0) .skip
    |>.addEdge (.id 0) .exit .skip
    |>.addFunction ⟨"main", [], ∅, .entry, .exit⟩
  labels := .ofList [("again", .id 0), ("entry", .entry), ("exit", .exit)]

/-- After an edit of the flow graph and a demand, an edit at the loop head of the demanded graph
takes the next location, and the one that the first edit took is unknown to the demanded graph. -/
theorem edits_take_fresh_locations_spin :
    (spin.load .start).result = .ok spinLoaded ∧
      ∃ w, (ofProgram spinLoaded (spin.load .start).supply).Leads w ∧ w.supply.next = 2 ∧
        Loc.id 1 ∈ w.flow.graph.nodes ∧ (w.edit .graph (.id 0) .skip).1 = .ok (.id 2) ∧
        w.edit .graph (.id 1) .skip = (.error (.unknownLocation (.id 1)), w) := by
  let start := ofProgram spinLoaded (spin.load .start).supply
  let edited := (start.edit .flow (.id 0) .skip).2
  let w : Workspace := { edited with graph := (edited.graph.get (.state .exit)).graph }
  have hload : (spin.load .start).result = .ok spinLoaded := rfl
  have hrun : start.Leads w :=
    (Relation.ReflTransGen.single (.edit start .flow (.id 0) .skip)).tail
      (.demand edited (.get (.state .exit) .refl))
  have hfacts : w.supply.next = 2 ∧ Loc.id 1 ∈ w.flow.graph.nodes ∧
      Loc.id 0 ∈ w.graph.flow.graph.nodes ∧ Loc.id 1 ∉ w.graph.flow.graph.nodes := by
    decide +kernel
  obtain ⟨hnext, hflow, hhead, hunknown⟩ := hfacts
  obtain ⟨-, hedits⟩ := edits_take_fresh_locations hload hrun
  obtain ⟨w', heq, -⟩ := (hedits .graph (.id 0) .skip).1 hhead
  refine ⟨hload, w, hrun, hnext, hflow, ?_, (hedits .graph (.id 1) .skip).2 hunknown⟩
  rw [heq, hnext]

end Workspace

end Demanded
