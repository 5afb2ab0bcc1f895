import Demanded.Bounds.Check
import Demanded.Proofs.Dereferences
import Demanded.Proofs.GraphShape
import Demanded.Proofs.Histories
import Mathlib.Data.Set.List

/-!
# Findings and accesses

The check of a program goes through its statements in the order of their names and demands the state
before each one that has accesses.  So the graph changes from one statement to the next.  What a
statement is judged by is the state that is stable after its demand (`DemandGraph.Judges`).  Such a
state stays as it is (`StableAs.get`), so it is still there at the end, and the findings can be told
from the last graph (`DemandGraph.findings_checkStmts`).  A check fails only where a state does not
come to rest: each name is that of a statement, and a demand at a location answers with a state
(`DemandGraph.unsettled_of_checkBounds`).

The main result is `DemandGraph.accesses_judged_once`.  It counts accesses by their places and edges
by their ranks.
-/

namespace Demanded.DemandGraph

open RankedEdge (named)

variable {g : DemandGraph} {patience : Nat} {loc : Loc} {s : State}

/-! ## Stable states -/

/-- The state at a location is stable, and it is `s`. -/
structure StableAs (g : DemandGraph) (loc : Loc) (s : State) : Prop where
  stable : g.isStable (.state loc) = true
  cached : g.cached? loc = some s

theorem stableAs_iff :
    g.StableAs loc s ↔
      ∃ cell, g.cells.get? loc = some cell ∧ cell.isFinal = true ∧ cell.value = s := by
  constructor
  · rintro ⟨hstable, hcached⟩
    obtain ⟨cell, hget, hfinal⟩ := isStable_iff.1 hstable
    rw [cached?_eq_some hget] at hcached
    exact ⟨cell, hget, hfinal, Option.some.inj hcached⟩
  · rintro ⟨cell, hget, hfinal, rfl⟩
    exact ⟨isStable_iff.2 ⟨cell, hget, hfinal⟩, cached?_eq_some hget⟩

/-- A demand leaves every stable state as it is. -/
theorem StableAs.get (h : g.StableAs loc s) (name : NodeName) :
    (g.get name).graph.StableAs loc s := by
  have hserves := g.serves_get name
  generalize g.get name = out at hserves ⊢
  cases hserves with
  | refused hname => exact h
  | stmt hname hne => exact h
  | run hname hrun hreports =>
    obtain ⟨cell, hget, hfinal, hvalue⟩ := stableAs_iff.1 h
    have hkept := hrun.frame.usable loc cell ⟨hget, .inl hfinal⟩
    exact stableAs_iff.2 ⟨cell, hkept, hfinal, hvalue⟩

/-- A demand answers with the state that it leaves behind. -/
theorem stableAs_get (h : (g.get (.state loc)).result = .ok (.state s))
    (hstable : (g.get (.state loc)).graph.isStable (.state loc) = true) :
    (g.get (.state loc)).graph.StableAs loc s := by
  have hserves := g.serves_get (.state loc)
  generalize g.get (.state loc) = out at h hstable hserves ⊢
  obtain ⟨cell, hget, hfinal⟩ := isStable_iff.1 hstable
  refine stableAs_iff.2 ⟨cell, hget, hfinal, ?_⟩
  cases hserves with
  | refused hname => cases h
  | stmt hname hne => cases h
  | @run _ a m _ hname hrun hreports =>
    cases h
    rw [hrun.answered.2, state_reply]
    exact (Cells.iterate_of_get? hget).symm

theorem stableAs_settle {fuel rounds : Nat} {events : Array Event}
    (h : (settle (.state loc) fuel rounds events g).result = .ok (.state s)) :
    (settle (.state loc) fuel rounds events g).graph.StableAs loc s := by
  induction fuel generalizing rounds events g with
  | zero => cases h
  | succ fuel ih =>
    rw [settle] at h ⊢
    split at h
    · cases h
    · rename_i resolved hok
      split at h
      · rename_i hstable
        cases h
        rw [if_pos hstable]
        exact stableAs_get hok hstable
      · rename_i hstable
        rw [if_neg hstable]
        exact ih h

theorem stableAs_stateAt (h : (g.stateAt patience loc).result = .ok s) :
    (g.stateAt patience loc).graph.StableAs loc s := by
  refine stableAs_settle ?_
  dsimp only [stateAt, getStable] at h
  split at h
  · cases h
  · rename_i hok
    cases h
    exact hok
  · cases h

theorem flow_stateAt (g : DemandGraph) (patience : Nat) (loc : Loc) :
    (g.stateAt patience loc).graph.flow = g.flow :=
  graph_settle (P := fun g' => g'.flow = g.flow)
    (fun g' name h => (g'.serves_get name).flow.trans h) (.state loc) patience 0 #[] rfl

/-- Demands at a location of the program end with a state, or they are abandoned. -/
theorem result_settle (hloc : loc ∈ g.flow.graph.nodes) (fuel rounds : Nat)
    (events : Array Event) :
    (settle (.state loc) fuel rounds events g).result = .error (.unsettled (.state loc)) ∨
      ∃ s, (settle (.state loc) fuel rounds events g).result = .ok (.state s) := by
  induction fuel generalizing rounds events g with
  | zero => exact .inl rfl
  | succ fuel ih =>
    have hserves := g.serves_get (.state loc)
    rw [settle]
    generalize g.get (.state loc) = out at hserves ⊢
    cases hserves with
    | refused hname => exact absurd (state_mem_nodes.2 hloc) hname
    | stmt hname hne => exact absurd rfl (hne loc)
    | @run _ a m _ hname hrun hreports =>
      dsimp only
      split
      · exact .inr ⟨_, rfl⟩
      · exact ih (g := g.resume m) hloc _ _

theorem unsettled_of_stateAt (hloc : loc ∈ g.flow.graph.nodes) {e : Failure}
    (h : (g.stateAt patience loc).result = .error e) : e = .unsettled (.state loc) := by
  have hresult := result_settle hloc patience 0 #[]
  dsimp only [stateAt, getStable] at h
  rcases hresult with herror | ⟨s, hok⟩
  · rw [herror] at h
    exact (Except.error.inj h).symm
  · rw [hok] at h
    cases h

/-! ## The check of one statement -/

/-- What the check of an edge finds, and the graph that it leaves behind.  An edge without accesses
is passed over.  Any other edge is judged by the state that a demand makes stable at its source. -/
inductive Judges (patience : Nat) (g : DemandGraph) :
    RankedEdge → List Finding → DemandGraph → Prop
  | quiet {x : RankedEdge} (hx : x.label.accesses = []) : Judges patience g x [] g
  | judged {x : RankedEdge} {pre : State} (hx : x.label.accesses ≠ [])
      (hpre : (g.stateAt patience x.src).graph.StableAs x.src pre) :
      Judges patience g x (judge pre x.src x.dst x.label) (g.stateAt patience x.src).graph

/-- The check of an edge stops at a state that does not become stable, or it judges the edge and
goes on with the others. -/
theorem checkStmts_step (patience : Nat) (g : DemandGraph) (x : RankedEdge)
    (acc : List Finding) (events : Array Event) :
    (∃ e events₁, x.label.accesses ≠ [] ∧ (g.stateAt patience x.src).result = .error e ∧
      ∀ rest, checkStmts patience (x.named :: rest) acc events g =
        ⟨.error e, (g.stateAt patience x.src).graph, events₁⟩) ∨
    ∃ found events₁ g₁, g.Judges patience x found g₁ ∧ ∀ rest,
      checkStmts patience (x.named :: rest) acc events g =
        checkStmts patience rest (acc ++ found) events₁ g₁ := by
  by_cases hx : x.label.accesses = []
  · refine .inr ⟨[], events, g, .quiet hx, fun rest => ?_⟩
    rw [named, RankedEdge.name, checkStmts, hx, List.append_nil]
    rfl
  · have hsome : ¬x.label.accesses.isEmpty = true := by simpa using hx
    cases hstate : (g.stateAt patience x.src).result with
    | error e =>
      refine .inl ⟨e, events ++ (g.stateAt patience x.src).events, hx, rfl, fun rest => ?_⟩
      simp only [named, RankedEdge.name, checkStmts, if_neg hsome, hstate]
    | ok pre =>
      obtain ⟨events₁, heq⟩ : ∃ events₁, ∀ rest,
          checkStmts patience (x.named :: rest) acc events g =
            checkStmts patience rest (acc ++ judge pre x.src x.dst x.label) events₁
              (g.stateAt patience x.src).graph := by
        apply Exists.intro
        intro rest
        rw [named, RankedEdge.name, checkStmts, if_neg hsome]
        simp only [hstate]
        rfl
      exact .inr ⟨_, events₁, _, .judged hx (stableAs_stateAt hstate), heq⟩

/-! ## The check of all statements -/

section Checks

variable {ranked : List RankedEdge} {acc found : List Finding} {events : Array Event}

/-- What single demands keep, a check keeps. -/
theorem graph_checkStmts {P : DemandGraph → Prop} (hget : ∀ g name, P g → P (g.get name).graph)
    (ranked : List RankedEdge) (acc : List Finding) (events : Array Event) (h : P g) :
    P (checkStmts patience (ranked.map named) acc events g).graph := by
  induction ranked generalizing acc events g with
  | nil => exact h
  | cons x rest ih =>
    have hdemand : P (g.stateAt patience x.src).graph :=
      graph_settle hget (.state x.src) patience 0 #[] h
    rcases checkStmts_step patience g x acc events with
      ⟨e, events₁, -, -, heq⟩ | ⟨_, _, g₁, hx, heq⟩
    · rw [List.map_cons, heq]
      exact hdemand
    · rw [List.map_cons, heq]
      cases hx with
      | quiet => exact ih _ _ h
      | judged => exact ih _ _ hdemand

theorem StableAs.checkStmts (h : g.StableAs loc s) (ranked : List RankedEdge)
    (acc : List Finding) (events : Array Event) :
    (checkStmts patience (ranked.map named) acc events g).graph.StableAs loc s :=
  graph_checkStmts (P := fun g => g.StableAs loc s) (fun _ name h => h.get name) ranked acc events h

/-- A check that succeeds judges its first edge and goes on with the others. -/
theorem checkStmts_cons {x : RankedEdge}
    (h : (checkStmts patience ((x :: ranked).map named) acc events g).result = .ok found) :
    ∃ found₁ events₁ g₁, g.Judges patience x found₁ g₁ ∧
      ∀ rest, checkStmts patience (x.named :: rest) acc events g =
        checkStmts patience rest (acc ++ found₁) events₁ g₁ := by
  refine (checkStmts_step patience g x acc events).resolve_left ?_
  rintro ⟨e, events₁, -, -, heq⟩
  rw [List.map_cons, heq] at h
  cases h

/-- A check that succeeds comes to its last edges after the ones before. -/
theorem checkStmts_append {before : List RankedEdge}
    (h : (checkStmts patience ((before ++ ranked).map named) acc events g).result = .ok found) :
    ∃ found₁ events₁, checkStmts patience ((before ++ ranked).map named) acc events g =
      checkStmts patience (ranked.map named) found₁ events₁
        (checkStmts patience (before.map named) acc events g).graph := by
  induction before generalizing acc events g with
  | nil => exact ⟨acc, events, rfl⟩
  | cons x rest ih =>
    obtain ⟨found₁, events₁, g₁, -, heq⟩ := checkStmts_cons h
    rw [List.cons_append, List.map_cons, heq] at h ⊢
    rw [List.map_cons, heq]
    exact ih h

/-- The findings about an edge, by the state that a graph has at its source. -/
def findingsIn (g : DemandGraph) (x : RankedEdge) : List Finding :=
  judge ((g.cached? x.src).getD .bottom) x.src x.dst x.label

/-- What is found about an edge can still be told at the end of the check. -/
theorem Judges.eq_findingsIn {x : RankedEdge} {g₁ : DemandGraph}
    (h : g.Judges patience x found g₁) (ranked : List RankedEdge) (acc : List Finding)
    (events : Array Event) :
    found = (checkStmts patience (ranked.map named) acc events g₁).graph.findingsIn x := by
  cases h with
  | quiet hx => rw [findingsIn, judge, hx, List.map_nil]
  | judged hx hpre => rw [findingsIn, (hpre.checkStmts ranked acc events).cached, Option.getD_some]

/-- The findings of a check are those about its edges, in their order. -/
theorem findings_checkStmts
    (h : (checkStmts patience (ranked.map named) acc events g).result = .ok found) :
    found = acc ++ ranked.flatMap
      (checkStmts patience (ranked.map named) acc events g).graph.findingsIn := by
  induction ranked generalizing acc events g with
  | nil =>
    cases h
    exact (List.append_nil found).symm
  | cons x rest ih =>
    obtain ⟨found₁, events₁, g₁, hjudges, heq⟩ := checkStmts_cons h
    rw [List.map_cons, heq] at h ⊢
    rw [List.flatMap_cons, ← hjudges.eq_findingsIn, ← List.append_assoc]
    exact ih h

/-- A check stops only at an edge with accesses whose source does not come to rest. -/
theorem unsettled_of_checkStmts (hsrc : ∀ x ∈ ranked, x.src ∈ g.flow.graph.nodes) {e : Failure}
    (h : (checkStmts patience (ranked.map named) acc events g).result = .error e) :
    ∃ x ∈ ranked, x.label.accesses ≠ [] ∧ e = .unsettled (.state x.src) := by
  induction ranked generalizing acc events g with
  | nil => cases h
  | cons x rest ih =>
    obtain ⟨hx, hrest⟩ := List.forall_mem_cons.1 hsrc
    rcases checkStmts_step patience g x acc events with
      ⟨e', events₁, haccesses, hresult, heq⟩ | ⟨found₁, events₁, g₁, hjudges, heq⟩
    · rw [List.map_cons, heq] at h
      cases h
      exact ⟨x, List.mem_cons_self, haccesses, unsettled_of_stateAt hx hresult⟩
    · have hflow : g₁.flow = g.flow := by
        cases hjudges with
        | quiet => rfl
        | judged => exact g.flow_stateAt patience x.src
      rw [List.map_cons, heq] at h
      obtain ⟨y, hy, hstop⟩ := ih (hflow ▸ hrest) h
      exact ⟨y, List.mem_cons_of_mem x hy, hstop⟩

end Checks

/-! ## All accesses -/

/-- The named statements of a program are its edges with their ranks. -/
theorem exists_ranked (f : FlowGraph) :
    ∃ ranked : List RankedEdge, (Skeleton.ofFlow f).stmts.entries = ranked.map named ∧
      (ranked.map RankedEdge.toEdge).Perm f.edges := by
  have hperm : (Skeleton.ofFlow f).stmts.entries.Perm (f.rankedEdges.map named) := by
    rw [← FlowGraph.namedStmts_eq_map]
    refine (List.perm_ext_iff_of_nodup (.of_map Prod.fst (OrdMap.nodup_keys _))
      (.of_map Prod.fst f.nodup_names)).2 fun x => ?_
    exact OrdMap.mem_entries_iff.trans (OrdMap.get?_ofList_eq_some_iff f.nodup_names)
  obtain ⟨ranked, hranked⟩ : (Skeleton.ofFlow f).stmts.entries ∈ Set.range (List.map named) := by
    rw [Set.range_list_map]
    intro x hx
    obtain ⟨y, -, hy⟩ := List.mem_map.1 (hperm.mem_iff.1 hx)
    exact ⟨y, hy⟩
  rw [← hranked, List.map_perm_map_iff RankedEdge.named_injective] at hperm
  exact ⟨ranked, hranked.symm, (hperm.map RankedEdge.toEdge).trans f.perm_rankedEdges⟩

/-- The check of a program is that of its edges with their ranks. -/
theorem exists_checkBounds_eq (g : DemandGraph) (patience : Nat) :
    ∃ ranked : List RankedEdge, g.skeleton.stmts.entries = ranked.map named ∧
      (ranked.map RankedEdge.toEdge).Perm g.flow.edges ∧
      g.checkBounds patience = checkStmts patience (ranked.map named) [] #[] g := by
  obtain ⟨ranked, hnames, hedges⟩ := exists_ranked g.flow
  rw [← g.built] at hnames
  exact ⟨ranked, hnames, hedges, by rw [checkBounds, hnames]⟩

/-- The check of a program fails only because the state before an edge with accesses does not come
to rest. -/
theorem unsettled_of_checkBounds {e : Failure} (h : (g.checkBounds patience).result = .error e) :
    ∃ edge ∈ g.flow.edges, edge.label.accesses ≠ [] ∧ e = .unsettled (.state edge.src) := by
  obtain ⟨ranked, -, hedges, hcheck⟩ := g.exists_checkBounds_eq patience
  rw [hcheck] at h
  have hmem : ∀ x ∈ ranked, x.toEdge ∈ g.flow.edges :=
    fun x hx => hedges.mem_iff.1 (List.mem_map_of_mem hx)
  have hsrc : ∀ x ∈ ranked, x.src ∈ g.flow.graph.nodes := fun x hx =>
    Multigraph.Leads.src_mem ⟨x.toEdge, hmem x hx, rfl, rfl⟩
  obtain ⟨x, hx, hstop⟩ := unsettled_of_checkStmts hsrc h
  exact ⟨x.toEdge, hmem x hx, hstop⟩

/-- The graph in which an edge is judged: the edges before it have been checked, and then the state
at its source was demanded. -/
def judgedIn (g : DemandGraph) (patience : Nat) (before : List RankedEdge)
    (x : RankedEdge) : DemandGraph :=
  ((checkStmts patience (before.map named) [] #[] g).graph.stateAt patience x.src).graph

/-- The findings of a check are one for each edge and each access of its statement. -/
structure Accounts (g : DemandGraph) (patience : Nat) (findings : List Finding)
    (ranked : List RankedEdge) (pre : Loc → State) : Prop where
  /-- The edges are those of the program, parallel ones included. -/
  edges : (ranked.map RankedEdge.toEdge).Perm g.flow.edges
  /-- With their ranks they have the names of the graph. -/
  names : g.skeleton.stmts.entries = ranked.map named
  /-- They come in the order of names. -/
  ascending : (ranked.map RankedEdge.name).Pairwise fun a b => compare a b = .lt
  /-- The findings follow the edges and the accesses of each one. -/
  findings_eq : findings = ranked.flatMap fun x => x.label.accesses.map fun access =>
    ⟨x.src, x.dst, access, classify (pre x.src) access⟩
  /-- The state at the source of an edge with accesses is stable where the edge is judged, and it is
  the same at the end. -/
  stable : ∀ before x after, ranked = before ++ x :: after → x.label.accesses ≠ [] →
    (g.judgedIn patience before x).StableAs x.src (pre x.src) ∧
      (g.checkBounds patience).graph.StableAs x.src (pre x.src)

theorem exists_accounts {findings : List Finding}
    (h : (g.checkBounds patience).result = .ok findings) :
    ∃ ranked pre, g.Accounts patience findings ranked pre := by
  obtain ⟨ranked, hnames, hedges, hcheck⟩ := g.exists_checkBounds_eq patience
  rw [hcheck] at h
  refine ⟨ranked, fun loc => ((g.checkBounds patience).graph.cached? loc).getD .bottom, hedges,
    hnames, ?_, ?_, ?_⟩
  · have hascending := g.skeleton.stmts.ascending
    rw [hnames, Ascending, List.pairwise_map] at hascending
    exact List.pairwise_map.2 hascending
  · rw [hcheck]
    exact findings_checkStmts h
  · rintro before x after rfl hx
    obtain ⟨found₁, events₁, heq⟩ := checkStmts_append h
    rw [heq] at h
    obtain ⟨found₂, events₂, g₂, hjudges, heq'⟩ := checkStmts_cons h
    cases hjudges with
    | quiet hquiet => exact absurd hquiet hx
    | @judged pre _ hpre =>
      -- no later demand changes the state, so it is the one that the last graph has
      have hend : (g.checkBounds patience).graph.StableAs x.src pre := by
        rw [hcheck, heq, List.map_cons, heq']
        exact hpre.checkStmts after _ _
      rw [hend.cached]
      exact ⟨hpre, hend⟩

/-- A statement lists an access as often as there are places for it.  And the findings of a check
that succeeds are one for each edge of the program and each access that its statement lists, in the
order of the names of statements.  The verdict is the one by the state that is stable at the source
of the edge when it is judged. -/
theorem accesses_judged_once :
    (∀ (stmt : Stmt) (access : Access),
      stmt.accesses.count access = (places stmt.accessAt? access).encard) ∧
    ∀ (g : DemandGraph) (patience : Nat) (findings : List Finding),
      (g.checkBounds patience).result = .ok findings →
        ∃ ranked pre, g.Accounts patience findings ranked pre :=
  ⟨fun stmt _ => stmt.count_accesses, fun _ _ _ => exists_accounts⟩

/-- A statement that reads the same element twice. -/
def readTwice : Stmt :=
  .assign "x" (.binary .add (.index (.var "a") (.var "n")) (.index (.var "a") (.var "n")))

/-- A program that may read the element in two ways. -/
def twoReaders : FlowGraph :=
  FlowGraph.empty
    |>.addEdge .entry (.id 0) (.assign "a" (.array [.var "p", .var "q"]))
    |>.addEdge (.id 0) (.id 1) (.assign "n" (.lit (.bool true)))
    |>.addEdge (.id 1) .exit readTwice
    |>.addEdge (.id 1) .exit readTwice

/-- The element has two places in the statement, and there are four findings, one for each of them
and each of the two edges. -/
theorem accesses_judged_once_twoReaders :
    (places readTwice.accessAt? ⟨.var "a", .var "n"⟩).encard = 2 ∧
      ∃ findings ranked pre, ((ofFlow twoReaders).checkBounds 3).result = .ok findings ∧
        (ofFlow twoReaders).Accounts 3 findings ranked pre ∧
        findings.map Finding.verdict = [.safe, .safe, .safe, .safe] := by
  have hchecked : ((ofFlow twoReaders).checkBounds 3).result.toOption.map
      (List.map Finding.verdict) = some [.safe, .safe, .safe, .safe] := by
    decide +kernel
  have hcount : readTwice.accesses.count ⟨.var "a", .var "n"⟩ = 2 := by decide +kernel
  refine ⟨?_, ?_⟩
  · rw [← accesses_judged_once.1, hcount]
    rfl
  · cases hresult : ((ofFlow twoReaders).checkBounds 3).result with
    | error e =>
      rw [hresult] at hchecked
      cases hchecked
    | ok findings =>
      rw [hresult] at hchecked
      obtain ⟨ranked, pre, haccounts⟩ := accesses_judged_once.2 _ _ _ hresult
      exact ⟨findings, ranked, pre, rfl, haccounts, Option.some.inj hchecked⟩

end Demanded.DemandGraph
