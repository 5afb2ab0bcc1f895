import Demanded.Proofs.Histories

/-!
# Where states are kept

A demand computes a state after the states at the sources of its statements.  A loop head is the
exception: the states in its loop are computed while it has none, or only a first iterate.  But it
is marked meanwhile, and it gets its state before the demand ends.

`Grounded` says this of the cells while some heads are being computed, and a run keeps it
(`Run.grounded`).  So between demands a state is kept only for a location of the program, and only
together with the states at its sources (`DemandGraph.Reached.mem_nodes`,
`DemandGraph.Reached.isSome_source`).
-/

namespace Demanded

section Grounding

variable {sk : Skeleton} {P : Loc → Prop} {pass : Nat} {V V' : OrdSet Loc} {c c' : Cells}
  {loc : Loc}

/-- The location has a cell or is being computed. -/
def Attended (V : OrdSet Loc) (c : Cells) (loc : Loc) : Prop :=
  loc ∈ V.toList ∨ (c.get? loc).isSome = true

theorem Ready.attended (h : Ready pass V c loc) : Attended V c loc := by
  refine h.imp id fun ⟨cell, hu⟩ => ?_
  rw [hu.1]
  rfl

/-- States are kept where the condition holds.  Those that are not being computed are kept together
with the states at their sources. -/
structure Grounded (sk : Skeleton) (P : Loc → Prop) (V : OrdSet Loc) (c : Cells) : Prop where
  located : ∀ loc, (c.get? loc).isSome = true → P loc
  sources : ∀ loc, loc ∉ V.toList → (c.get? loc).isSome = true →
    ∀ input ∈ sk.inputs loc, Attended V c input.1

namespace Grounded

theorem enter (h : Grounded sk P V c) (loc : Loc) : Grounded sk P (V.add loc) c where
  located := h.located
  sources x hx hsome input hmem :=
    (h.sources x (fun hv => hx (OrdSet.mem_add.2 (.inr hv))) hsome input hmem).imp
      (fun hv => OrdSet.mem_add.2 (.inr hv)) id

/-- Keeping a state, and then perhaps ending the computation of its location. -/
theorem insert (h : Grounded sk P V c) (cell : Cell)
    (hV : ∀ x ∈ V.toList, x = loc ∨ x ∈ V'.toList) (hloc : P loc)
    (hin : loc ∉ V'.toList → ∀ input ∈ sk.inputs loc, Attended V c input.1) :
    Grounded sk P V' (c.insert loc cell) := by
  have hself : ((c.insert loc cell).get? loc).isSome = true := by
    rw [OrdMap.get?_insert_self]
    rfl
  have hattended : ∀ x, Attended V c x → Attended V' (c.insert loc cell) x := by
    intro x hx
    by_cases he : x = loc
    · exact .inr (he ▸ hself)
    · rcases hx with hv | hsome
      · exact .inl ((hV x hv).resolve_left he)
      · exact .inr (by rwa [OrdMap.get?_insert_of_ne _ _ he])
  refine ⟨fun x hsome => ?_, fun x hx hsome input hmem => hattended _ ?_⟩
  · by_cases he : x = loc
    · exact he ▸ hloc
    · rw [OrdMap.get?_insert_of_ne _ _ he] at hsome
      exact h.located x hsome
  · by_cases he : x = loc
    · subst he
      exact hin hx input hmem
    · rw [OrdMap.get?_insert_of_ne _ _ he] at hsome
      exact h.sources x (fun hv => (hV x hv).elim he hx) hsome input hmem

end Grounded

/-- The locations whose states a task asks for. -/
def Task.asked : Task → List Loc
  | .demand loc => [loc]
  | .join inputs _ => inputs.map Prod.fst

/-- A run keeps states only where the condition holds, if it holds of the sources of a location
whenever it holds of the location. -/
theorem Run.grounded {task : Task} {a : Answer} {log : List Loc} (hsk : sk.Regular)
    (hP : ∀ loc, P loc → ∀ input ∈ sk.inputs loc, P input.1)
    (h : Run sk pass V task c a c' log) (htask : ∀ loc ∈ task.asked, P loc)
    (hc : Grounded sk P V c) : Grounded sk P V c' := by
  have hsources : ∀ {loc : Loc} {inputs : List (Loc × Stmt)} {acc : Answer}, P loc →
      (∀ input ∈ inputs, input ∈ sk.inputs loc) → ∀ x ∈ (Task.join inputs acc).asked, P x := by
    intro loc inputs acc hloc hsub x hx
    obtain ⟨input, hmem, rfl⟩ := List.mem_map.1 hx
    exact hP loc hloc input (hsub input hmem)
  induction h with
  | iterate hvis => exact hc
  | kept hvis hcell => exact hc
  | @plain V loc c c' a log hvis hnone hplain henter ih =>
    have hloc : P loc := htask loc (List.mem_singleton.2 rfl)
    refine (ih (hsources hloc fun _ => Skeleton.mem_of_mem_forwardInputs) hc).insert _
      (fun x => .inr) hloc fun _ input hmem => ?_
    rw [← hsk.plain loc hplain] at hmem
    exact (henter.answered.1 input hmem).attended
  | @head V loc c c₁ c₂ entering looping a prev log₁ log₂ hvis hnone hhead henter hprev hloop ha
      ihe ihl =>
    have hloc : P loc := htask loc (List.mem_singleton.2 rfl)
    have hmem : loc ∈ (V.add loc).toList := OrdSet.mem_add.2 (.inl rfl)
    have hc₁ := ihe (hsources hloc fun _ => Skeleton.mem_of_mem_forwardInputs) (hc.enter loc)
    have hseed := hc₁.insert ⟨prev, OrdSet.singleton loc, pass⟩ (fun x => .inr) hloc
      fun hnot => absurd hmem hnot
    have hc₂ := ihl (hsources hloc fun _ => Skeleton.mem_of_mem_backInputs) hseed
    refine hc₂.insert _ (fun x => OrdSet.mem_add.1) hloc fun _ input hinput => ?_
    -- the states that enter are still there when the loop has been followed
    have hentered := henter.answered.after_seed (hsk.apart loc) hloop.frame
    rcases Skeleton.mem_inputs_cases hinput with hin | hin
    · exact (hentered.1 input hin).attended
    · exact (hloop.answered.1 input hin).attended
  | done => exact hc
  | step hask hrest ih ih' =>
    obtain ⟨hsrc, hinputs⟩ := List.forall_mem_cons.1 htask
    exact ih' hinputs (ih (List.forall_mem_singleton.2 hsrc) hc)

end Grounding

/-! ## Demanded graphs -/

namespace DemandGraph

variable {g g' : DemandGraph}

/-- States are kept for locations of the program, together with those at their sources. -/
def IsGrounded (g : DemandGraph) : Prop :=
  Grounded g.skeleton (· ∈ g.flow.graph.nodes) g.visiting g.cells

theorem isGrounded_ofFlow (f : FlowGraph) : (ofFlow f).IsGrounded where
  located _ h := nomatch h
  sources _ _ h := nomatch h

theorem IsGrounded.get (h : g.IsGrounded) (name : NodeName) : (g.get name).graph.IsGrounded := by
  have hserves := g.serves_get name
  generalize g.get name = out at hserves ⊢
  cases hserves with
  | refused hname => exact h
  | stmt hname hloc => exact h
  | @run loc a m log hname hrun hreports =>
    have hm := hrun.grounded g.regular (P := (· ∈ g.flow.graph.nodes))
      (fun _ _ _ hmem => (leads_of_mem_inputs hmem).src_mem)
      (List.forall_mem_singleton.2 (state_mem_nodes.1 hname)) h
    show Grounded g.skeleton (· ∈ g.flow.graph.nodes) m.visiting m.cells
    rwa [hreports.visiting]

/-- What is kept after a change of the program is grounded, if nothing changes in the part where it
lies and no source of the part lies outside it. -/
theorem IsGrounded.restrict (h : g.IsGrounded) (cone : OrdSet Loc)
    (hvis : g'.visiting = g.visiting)
    (hcells : g'.cells = g.cells.filterKeys fun l => !cone.contains l)
    (hnodes : ∀ x ∈ g.flow.graph.nodes, x ∈ g'.flow.graph.nodes)
    (hcone : ∀ a b, g'.flow.graph.Leads a b → a ∈ cone.toList → b ∈ cone.toList)
    (hsk : ∀ x, x ∉ cone.toList → g.skeleton.AgreesAt g'.skeleton x) : g'.IsGrounded := by
  have hkept : ∀ x, (g'.cells.get? x).isSome = true ↔
      x ∉ cone.toList ∧ (g.cells.get? x).isSome = true := by
    intro x
    rw [hcells, get?_filterKeys_cone]
    split <;> simp_all
  refine ⟨fun x hsome => hnodes x (h.located x ((hkept x).1 hsome).2), ?_⟩
  intro x hx hsome input hmem
  obtain ⟨hout, hsome⟩ := (hkept x).1 hsome
  have hsource : input.1 ∉ cone.toList := fun hin =>
    hout (hcone _ _ (leads_of_mem_inputs hmem) hin)
  rw [← (hsk x hout).inputs] at hmem
  rw [hvis] at hx
  refine (h.sources x hx hsome input hmem).imp (fun hv => by rwa [hvis]) fun hs => ?_
  exact (hkept _).2 ⟨hsource, hs⟩

theorem IsGrounded.dirty (h : g.IsGrounded) (loc : Loc) : (g.dirty loc).IsGrounded :=
  h.restrict (g.flow.graph.reachable loc) rfl rfl (fun _ hx => hx) (fun _ _ => reachable_closed)
    fun x _ => .refl _ x

theorem IsGrounded.addStmtAt (h : g.IsGrounded) (supply : LocSupply) (loc : Loc) (stmt : Stmt) :
    (g.addStmtAt supply loc stmt).graph.IsGrounded := by
  by_cases hloc : loc ∈ g.flow.graph.nodes
  · obtain ⟨events, heq⟩ := addStmtAt_of_mem supply stmt hloc
    rw [heq]
    exact h.restrict ((g.flow.splice loc _ stmt).graph.reachable _) rfl rfl
      (fun x hx => (FlowGraph.mem_nodes_splice stmt hloc).2 (.inl hx))
      (fun _ _ => reachable_closed) fun x hx => agreesAt_edited stmt hloc hx
  · rw [addStmtAt_of_notMem supply stmt hloc]
    exact h

theorem Reached.isGrounded (h : g.Reached) : g.IsGrounded :=
  h.invariant isGrounded_ofFlow (fun _ name h => h.get name) (fun _ loc h => h.dirty loc)
    fun _ supply loc stmt h => h.addStmtAt supply loc stmt

/-- States are kept for locations of the program. -/
theorem Reached.mem_nodes (h : g.Reached) {loc : Loc} (hsome : (g.cells.get? loc).isSome = true) :
    loc ∈ g.flow.graph.nodes :=
  h.isGrounded.located loc hsome

/-- Where a statement leads to a location whose state is kept, the state at its source is kept. -/
theorem Reached.isSome_source (h : g.Reached) {e : Edge Loc Stmt} (he : e ∈ g.flow.edges)
    (hsome : (g.cells.get? e.dst).isSome = true) : (g.cells.get? e.src).isSome = true := by
  have hidle := h.coherent.notMem_visiting
  have hinput : (e.src, e.label) ∈ g.skeleton.inputs e.dst :=
    g.built ▸ Skeleton.mem_inputs.2 ⟨e, he, rfl, rfl, rfl⟩
  exact (h.isGrounded.sources e.dst (hidle _) hsome _ hinput).resolve_left (hidle _)

end DemandGraph

end Demanded
