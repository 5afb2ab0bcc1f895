import Mathlib.Data.List.Chain
import Demanded.Bounds.Demo
import Demanded.DemandGraph.Rounds
import Demanded.Proofs.Mentions
import Demanded.Proofs.PostFixpoint
import Demanded.Proofs.Transfer

/-!
# Executions stay within stable states

Stable states follow executions from edge to edge.  So whether they hold of the executions that
start at a location in any store depends on the state kept there: it has to be unconstrained
(`DemandGraph.coversExecutions_iff`).

Functions enter where their programs say, but only roots are unconstrained.  The entry of a function
is a root if the edges into it are back edges.  This is so if it reaches every location that reaches
it and comes before them; in a loaded program only sentinels can come before it (`rank_entry_le`).
Code that leads to the entry of a function and that is not reached from it makes the difference:
such a program is `strayCode`.
-/

namespace Demanded

namespace DemandGraph

variable {g : DemandGraph} {start : Loc}

/-- An execution from the location, in any store, is within the states that are kept where it goes,
if these are stable. -/
def CoversExecutions (g : DemandGraph) (start : Loc) : Prop :=
  ∀ (σ : Store) (rest : List (Loc × Store)), ((start, σ) :: rest).IsChain g.flow.Step →
    (∀ c ∈ (start, σ) :: rest, g.isStable (.state c.1) = true) →
    ∀ c ∈ (start, σ) :: rest, ∃ s, g.cached? c.1 = some s ∧ s ≠ .bottom ∧ s.Sat c.2

/-- One step between stable locations. -/
theorem Coherent.sat_step (h : g.Coherent) {c c' : Loc × Store} (hstep : g.flow.Step c c')
    (hc : g.isStable (.state c.1) = true) (hc' : g.isStable (.state c'.1) = true) {s : State}
    (hs : g.cached? c.1 = some s) (hsat : s.Sat c.2) :
    ∃ t, g.cached? c'.1 = some t ∧ t.Sat c'.2 := by
  obtain ⟨e, he, hsrc, hdst, hexec⟩ := hstep
  obtain ⟨s', t, hs', ht, himp⟩ := h.interpret_implies he (hsrc ▸ hc) (hdst ▸ hc')
  rw [hsrc, hs] at hs'
  cases hs'
  exact ⟨t, hdst ▸ ht, State.sat_of_implies himp (State.sat_interpret hsat hexec)⟩

/-- A whole execution between stable locations, by induction on the steps that are left. -/
theorem Coherent.sat_execution (h : g.Coherent) {c : Loc × Store} {rest : List (Loc × Store)}
    (hchain : (c :: rest).IsChain g.flow.Step)
    (hstable : ∀ x ∈ c :: rest, g.isStable (.state x.1) = true) {s : State}
    (hs : g.cached? c.1 = some s) (hsat : s.Sat c.2) :
    ∀ x ∈ c :: rest, ∃ t, g.cached? x.1 = some t ∧ t.Sat x.2 := by
  induction rest generalizing c s with
  | nil =>
    intro x hx
    rw [List.mem_singleton.1 hx]
    exact ⟨s, hs, hsat⟩
  | cons c' rest ih =>
    obtain ⟨hstep, hchain⟩ := List.isChain_cons_cons.1 hchain
    obtain ⟨hc, hrest⟩ := List.forall_mem_cons.1 hstable
    obtain ⟨t, ht, hsat'⟩ := h.sat_step hstep hc (hrest c' List.mem_cons_self) hs hsat
    exact List.forall_mem_cons.2 ⟨⟨s, hs, hsat⟩, ih hchain hrest ht hsat'⟩

theorem Coherent.coversExecutions_iff (h : g.Coherent) :
    g.CoversExecutions start ↔
      (g.isStable (.state start) = true → g.cached? start = some .top) := by
  constructor
  · intro hcovers hstable
    obtain ⟨cell, hget, -⟩ := isStable_iff.1 hstable
    have hall : ∀ σ, cell.value.Sat σ := by
      intro σ
      obtain ⟨s, hs, -, hsat⟩ := hcovers σ [] (List.isChain_singleton _)
        (List.forall_mem_singleton.2 hstable) (start, σ) List.mem_cons_self
      rw [cached?_eq_some hget] at hs
      cases hs
      exact hsat
    rw [cached?_eq_some hget, State.eq_top_of_forall_sat (h.normal start cell hget) hall]
  · intro htop σ rest hchain hstable c hc
    obtain ⟨s, hs, hsat⟩ := h.sat_execution hchain hstable
      (htop (hstable _ List.mem_cons_self)) (State.sat_top σ) c hc
    exact ⟨s, hs, State.ne_bottom_of_sat hsat, hsat⟩

theorem Coherent.coversExecutions_of_root (h : g.Coherent)
    (hroot : ∀ e ∈ g.flow.edges, e.dst = start → (e.src, start) ∈ g.flow.backEdges) :
    g.CoversExecutions start :=
  h.coversExecutions_iff.2 fun hstable => h.cached?_root hstable hroot

/-- A location is a root if it reaches the locations that reach it, and none of them comes before
it. -/
theorem mem_backEdges_of_first
    (hfirst : ∀ loc, g.flow.graph.Reaches loc start →
      g.flow.graph.Reaches start loc ∧ start.rank ≤ loc.rank) :
    ∀ e ∈ g.flow.edges, e.dst = start → (e.src, start) ∈ g.flow.backEdges := by
  rintro e he rfl
  refine Multigraph.mem_backEdges_of_first (fun loc h => (hfirst loc h).1) (fun loc h hlt => ?_)
    ⟨e, he, rfl, rfl⟩
  exact absurd (Nat.compare_eq_lt.1 hlt) (Nat.not_lt.2 (hfirst loc h).2)

/-- The stable states of a loaded program hold of all executions from the entry of a function, in
whatever stores, exactly if the entry is unconstrained once it is stable.  It is if all edges into
it are back edges, and these are if it reaches the locations that reach it and no sentinel among
them comes before it. -/
theorem executions_covered_iff {source : SourceProgram} {supply : LocSupply} {program : Program}
    (hload : (source.load supply).result = .ok program) {fn : Function}
    (hfn : fn ∈ program.flow.functions) (hg : g.Reached) (hflow : g.flow = program.flow) :
    (g.CoversExecutions fn.entry ↔
      (g.isStable (.state fn.entry) = true → g.cached? fn.entry = some .top)) ∧
    ((∀ e ∈ program.flow.edges, e.dst = fn.entry →
        (e.src, fn.entry) ∈ program.flow.backEdges) →
      g.CoversExecutions fn.entry) ∧
    ((∀ loc, program.flow.graph.Reaches loc fn.entry →
        program.flow.graph.Reaches fn.entry loc ∧
          (loc.isSentinel = true → fn.entry.rank ≤ loc.rank)) →
      g.CoversExecutions fn.entry) := by
  refine ⟨hg.coherent.coversExecutions_iff, fun hroot => ?_, fun hfirst => ?_⟩
  · exact hg.coherent.coversExecutions_of_root (hflow ▸ hroot)
  · refine hg.coherent.coversExecutions_of_root (mem_backEdges_of_first fun loc hreach => ?_)
    rw [hflow] at hreach ⊢
    obtain ⟨hback, hsentinel⟩ := hfirst loc hreach
    exact ⟨hback, (rank_entry_le hload hfn hreach).elim hsentinel id⟩

/-- A program that loops around the location where execution enters. -/
def countUp : SourceProgram :=
  ⟨[{ name := "main"
      formals := []
      entry := "entry"
      exit := "exit"
      edges :=
        [⟨"entry", "again", .assign "x" (.binary .add (.var "x") (Demo.number 3))⟩,
          ⟨"again", "entry", .skip⟩,
          ⟨"entry", "exit", Demo.guard .ge "x" 8⟩] }]⟩

/-- The program `countUp` with locations. -/
def countUpLoaded : Program where
  flow := FlowGraph.empty
    |>.addEdge .entry (.id 0) (.assign "x" (.binary .add (.var "x") (Demo.number 3)))
    |>.addEdge (.id 0) .entry .skip
    |>.addEdge .entry .exit (Demo.guard .ge "x" 8)
    |>.addFunction ⟨"main", [], .ofList ["x"], .entry, .exit⟩
  labels := .ofList [("again", .id 0), ("entry", .entry), ("exit", .exit)]

/-- An execution that goes through the loop once and then leaves it. -/
theorem executions_covered_iff_countUp :
    (countUp.load .start).result = .ok countUpLoaded ∧
      (∃ e ∈ countUpLoaded.flow.edges, e.dst = .entry) ∧
      ∃ s, ((ofFlow countUpLoaded.flow).everywhere 5 none).graph.cached? .exit = some s ∧
        s ≠ .bottom ∧ s.Sat (Store.put (fun _ => 5) "x" 8) := by
  let flow := countUpLoaded.flow
  let g := ((ofFlow flow).everywhere 5 none).graph
  let σ : Store := fun _ => 5
  let σ' : Store := σ.put "x" 8
  have hload : (countUp.load .start).result = .ok countUpLoaded := rfl
  have hflow : g.flow = flow :=
    graph_runRounds (P := fun g => g.flow = flow)
      (fun g name h => (g.serves_get name).flow.trans h) _ _ _ _ _ rfl
  have hfacts : (∃ e ∈ flow.edges, e.dst = .entry) ∧
      (∀ e ∈ flow.edges, e.dst = .entry → (e.src, .entry) ∈ flow.backEdges) ∧
      ∀ loc ∈ [Loc.entry, .id 0, .entry, .exit], g.isStable (.state loc) = true := by
    decide +kernel
  obtain ⟨hentered, hroot, hstable⟩ := hfacts
  have hassign : σ.Assigns "x" (.binary .add (.var "x") (Demo.number 3)) σ' :=
    { value := ⟨5, 3, rfl, rfl, rfl⟩
      others := fun _ hkey _ => Store.put_of_ne σ hkey 8
      copied := fun _ h => nomatch h
      length := fun _ h => nomatch h }
  have hchain : [(Loc.entry, σ), (.id 0, σ'), (.entry, σ'), (.exit, σ')].IsChain flow.Step :=
    .cons_cons ⟨⟨_, _, _⟩, List.mem_cons_self, rfl, rfl, hassign⟩ <|
      .cons_cons ⟨⟨_, _, .skip⟩, List.mem_cons_of_mem _ List.mem_cons_self, rfl, rfl, rfl⟩ <|
        .cons_cons ⟨⟨_, _, Demo.guard .ge "x" 8⟩,
          List.mem_cons_of_mem _ (List.mem_cons_of_mem _ List.mem_cons_self), rfl, rfl,
          rfl, 1, by decide, 8, 8, rfl, rfl, rfl⟩ <| .singleton _
  have hg : g.Reached := .fixpoint _ _ _ (.ofFlow flow)
  have hcovers := (executions_covered_iff hload List.mem_cons_self hg hflow).2.1 hroot
  refine ⟨hload, hentered, hcovers σ _ (hflow ▸ hchain) (fun c hc => ?_) (.exit, σ') (by simp)⟩
  exact hstable c.1 (List.mem_map_of_mem (f := Prod.fst) hc)

/-- A program with code that is not reached and that leads to where execution enters. -/
def strayCode : SourceProgram :=
  ⟨[{ name := "main"
      formals := []
      entry := "entry"
      exit := "exit"
      edges := [⟨"stray", "entry", .assign "x" (Demo.number 6)⟩, ⟨"entry", "exit", .skip⟩] }]⟩

/-- The program `strayCode` with locations. -/
def strayCodeLoaded : Program where
  flow := FlowGraph.empty
    |>.addEdge (.id 0) .entry (.assign "x" (Demo.number 6))
    |>.addEdge .entry .exit .skip
    |>.addFunction ⟨"main", [], .ofList ["x"], .entry, .exit⟩
  labels := .ofList [("entry", .entry), ("exit", .exit), ("stray", .id 0)]

/-- The program is loaded, and where its function enters a constrained state becomes stable. -/
theorem strayCode_not_covered :
    ∃ program fn, (strayCode.load .start).result = .ok program ∧ fn ∈ program.flow.functions ∧
      ∃ g : DemandGraph, g.Reached ∧ g.flow = program.flow ∧ ¬g.CoversExecutions fn.entry := by
  let g := ((ofFlow strayCodeLoaded.flow).get (.state .entry)).graph
  have hfacts : g.isStable (.state .entry) = true ∧ g.cached? .entry ≠ some .top := by
    decide +kernel
  obtain ⟨hstable, hconstrained⟩ := hfacts
  have hg : g.Reached := .get _ (.ofFlow _)
  refine ⟨strayCodeLoaded, _, rfl, List.mem_cons_self, g, hg, (serves_get _ _).flow, ?_⟩
  rw [hg.coherent.coversExecutions_iff]
  exact fun htop => hconstrained (htop hstable)

end DemandGraph

end Demanded
