import Demanded.Bounds.Demo
import Demanded.Proofs.Insertion

/-!
# Paths through an inserted statement

An insertion rewires some edges of a program to a fresh location and adds the edge of the new
statement between the old location and the fresh one (`FlowGraph.edges_splice`).  So the fresh
location is a double of the old one: whoever identifies the two sees the old program, in which the
new edge stays where it is.

`Multigraph.trace` reads the labels along a walk, those of hidden edges apart.  A walk of the old
program becomes one of the new program edge by edge, and a walk of the new program becomes one of
the old when the fresh location is taken for the old one; both keep the trace if the new edge is
hidden.  The main result is `FlowGraph.addStmtAt_keeps_traces`.
-/

namespace Demanded

universe u v

variable {N : Type u} {E : Type v}

/-- Whether an edge has the same ends as another one. -/
def Edge.parallelTo [DecidableEq N] (i e : Edge N E) : Bool :=
  decide (e.src = i.src ∧ e.dst = i.dst)

theorem Edge.parallelTo_self [DecidableEq N] (i : Edge N E) : i.parallelTo i = true :=
  decide_eq_true ⟨rfl, rfl⟩

/-! ## Walks and their traces -/

namespace Multigraph

/-- Edges that lead one after the other from a node to a node. -/
inductive Walk (g : Multigraph N E) : N → List (Edge N E) → N → Prop
  | nil (a : N) : Walk g a [] a
  | cons {e : Edge N E} {p : List (Edge N E)} {b : N} (he : e ∈ g.edges) (hp : Walk g e.dst p b) :
      Walk g e.src (e :: p) b

/-- The labels along edges, those of hidden edges apart. -/
def trace (hidden : Edge N E → Bool) (p : List (Edge N E)) : List E :=
  (p.filter fun e => !hidden e).map Edge.label

variable {g g' : Multigraph N E} {a b c : N} {p q : List (Edge N E)} {hidden : Edge N E → Bool}
  {e : Edge N E}

theorem Walk.append (hp : g.Walk a p b) (hq : g.Walk b q c) : g.Walk a (p ++ q) c := by
  induction hp with
  | nil a => exact hq
  | cons he _ ih => exact .cons he (ih hq)

theorem trace_append : trace hidden (p ++ q) = trace hidden p ++ trace hidden q := by
  rw [trace, List.filter_append, List.map_append]
  rfl

theorem trace_cons_of_hidden (h : hidden e = true) : trace hidden (e :: p) = trace hidden p := by
  rw [trace, List.filter_cons_of_neg (by simp [h])]
  rfl

theorem trace_cons_of_shown (h : hidden e = false) :
    trace hidden (e :: p) = e.label :: trace hidden p := by
  rw [trace, List.filter_cons_of_pos (by simp [h])]
  rfl

/-- If each edge can be walked elsewhere with the same trace, then so can each walk. -/
theorem Walk.expand
    (hstep : ∀ e ∈ g.edges, ∃ q, g'.Walk e.src q e.dst ∧ trace hidden q = [e.label])
    (h : g.Walk a p b) : ∃ q, g'.Walk a q b ∧ trace hidden q = p.map Edge.label := by
  induction h with
  | nil a => exact ⟨[], .nil a, rfl⟩
  | cons he _ ih =>
    obtain ⟨q₁, hwalk₁, htrace₁⟩ := hstep _ he
    obtain ⟨q₂, hwalk₂, htrace₂⟩ := ih
    refine ⟨q₁ ++ q₂, hwalk₁.append hwalk₂, ?_⟩
    rw [trace_append, htrace₁, htrace₂]
    rfl

/-- If nodes can be identified so that hidden edges stay where they are and all others are edges
elsewhere, then each walk can be walked there. -/
theorem Walk.contract (home : N → N)
    (hhidden : ∀ e ∈ g'.edges, hidden e = true → home e.src = home e.dst)
    (hshown : ∀ e ∈ g'.edges, hidden e = false → ⟨home e.src, home e.dst, e.label⟩ ∈ g.edges)
    (h : g'.Walk a p b) : ∃ q, g.Walk (home a) q (home b) ∧ q.map Edge.label = trace hidden p := by
  induction h with
  | nil a => exact ⟨[], .nil _, rfl⟩
  | @cons e p b he _ ih =>
    obtain ⟨q, hwalk, htrace⟩ := ih
    cases hh : hidden e with
    | true =>
      rw [hhidden e he hh, trace_cons_of_hidden hh]
      exact ⟨q, hwalk, htrace⟩
    | false =>
      refine ⟨⟨home e.src, home e.dst, e.label⟩ :: q, .cons (hshown e he hh) hwalk, ?_⟩
      rw [trace_cons_of_shown hh, ← htrace]
      rfl

end Multigraph

namespace FlowGraph

variable {f : FlowGraph} {loc fresh : Loc} {stmt : Stmt} {e : Edge Loc Stmt}

/-! ## The edges after an insertion -/

/-- Whether an insertion before a location moves an edge. -/
def isMoved (f : FlowGraph) (loc : Loc) (e : Edge Loc Stmt) : Bool :=
  decide (e.dst = loc) && !f.backEdges.contains (e.src, loc)

theorem isMoved_iff : f.isMoved loc e = true ↔ e.dst = loc ∧ (e.src, loc) ∉ f.backEdges := by
  rw [isMoved, Bool.and_eq_true, decide_eq_true_iff, Bool.not_eq_true', ← Bool.not_eq_true,
    List.contains_iff_mem]

/-- What an insertion makes of an edge. -/
def rewire (f : FlowGraph) (loc fresh : Loc) (e : Edge Loc Stmt) : Edge Loc Stmt :=
  if f.splicesBefore loc then
    if f.isMoved loc e then { e with dst := fresh } else e
  else if e.src = loc then { e with src := fresh } else e

/-- The edge that an insertion adds. -/
def insertedEdge (f : FlowGraph) (loc fresh : Loc) (stmt : Stmt) : Edge Loc Stmt :=
  if f.splicesBefore loc then ⟨fresh, loc, stmt⟩ else ⟨loc, fresh, stmt⟩

theorem splicesBefore_iff :
    f.splicesBefore loc = true ↔ f.isExit loc = true ∨ loc ∈ f.loopHeads.toList := by
  rw [splicesBefore, Bool.or_eq_true, OrdSet.contains_iff]

theorem edges_splice (hloc : loc ∈ f.graph.nodes) :
    (f.splice loc fresh stmt).edges =
      f.edges.map (f.rewire loc fresh) ++ [f.insertedEdge loc fresh stmt] := by
  unfold splice insertedEdge
  split
  · rename_i hbefore
    simp only [spliceBefore, edges, Multigraph.redirectIn, if_pos hloc, Multigraph.addEdge,
      Multigraph.move, Multigraph.edges_addNode]
    refine congrArg (· ++ _) (List.map_congr_left fun e _ => ?_)
    simp [rewire, isMoved, hbefore]
  · rename_i hafter
    simp only [spliceAfter, edges, Multigraph.redirectOut, if_pos hloc, Multigraph.addEdge,
      Multigraph.move, Multigraph.edges_addNode]
    refine congrArg (· ++ _) (List.map_congr_left fun e _ => ?_)
    simp [rewire, hafter]

theorem mem_edges_splice (hloc : loc ∈ f.graph.nodes) :
    e ∈ (f.splice loc fresh stmt).graph.edges ↔
      (∃ e₀ ∈ f.edges, f.rewire loc fresh e₀ = e) ∨ e = f.insertedEdge loc fresh stmt := by
  show e ∈ (f.splice loc fresh stmt).edges ↔ _
  rw [edges_splice hloc, List.mem_append, List.mem_map, List.mem_singleton]

theorem insertedEdge_cases (f : FlowGraph) (loc fresh : Loc) (stmt : Stmt) :
    f.insertedEdge loc fresh stmt = ⟨fresh, loc, stmt⟩ ∨
      f.insertedEdge loc fresh stmt = ⟨loc, fresh, stmt⟩ := by
  unfold insertedEdge
  split
  · exact .inl rfl
  · exact .inr rfl

/-- An edge stays, or it led to the old location and the new edge leads on from the fresh one, or it
left from the old location and the new edge leads to the fresh one. -/
theorem rewire_cases (f : FlowGraph) (loc fresh : Loc) (stmt : Stmt) (e : Edge Loc Stmt) :
    f.rewire loc fresh e = e ∨
      (e.dst = loc ∧ f.rewire loc fresh e = { e with dst := fresh } ∧
        f.insertedEdge loc fresh stmt = ⟨fresh, loc, stmt⟩) ∨
      (e.src = loc ∧ f.rewire loc fresh e = { e with src := fresh } ∧
        f.insertedEdge loc fresh stmt = ⟨loc, fresh, stmt⟩) := by
  unfold rewire insertedEdge
  split
  · split
    · rename_i hmoved
      exact .inr (.inl ⟨(isMoved_iff.1 hmoved).1, rfl, rfl⟩)
    · exact .inl rfl
  · split
    · rename_i hmoved
      exact .inr (.inr ⟨hmoved, rfl, rfl⟩)
    · exact .inl rfl

/-- No rewired edge has the ends of the new one: nothing else leaves from the fresh location, or
nothing else leads to it. -/
theorem not_parallelTo_rewire (f : FlowGraph) (loc : Loc) (stmt : Stmt) (hsrc : e.src ≠ fresh)
    (hdst : e.dst ≠ fresh) :
    (f.insertedEdge loc fresh stmt).parallelTo (f.rewire loc fresh e) = false := by
  refine decide_eq_false ?_
  rintro ⟨hs, hd⟩
  rcases f.rewire_cases loc fresh stmt e with heq | ⟨-, heq, hins⟩ | ⟨-, heq, hins⟩
  · rw [heq] at hs hd
    rcases f.insertedEdge_cases loc fresh stmt with hins | hins
    · rw [hins] at hs
      exact hsrc hs
    · rw [hins] at hd
      exact hdst hd
  · rw [heq, hins] at hs
    exact hsrc hs
  · rw [heq, hins] at hd
    exact hdst hd

/-! ## Both directions -/

/-- Each old edge can be walked after an insertion, through the new edge if it was rewired. -/
theorem exists_walk_splice (stmt : Stmt) (hloc : loc ∈ f.graph.nodes) (he : e ∈ f.edges)
    (hsrc : e.src ≠ fresh) (hdst : e.dst ≠ fresh) :
    ∃ q, (f.splice loc fresh stmt).graph.Walk e.src q e.dst ∧
      Multigraph.trace (f.insertedEdge loc fresh stmt).parallelTo q = [e.label] := by
  have hrewired : f.rewire loc fresh e ∈ (f.splice loc fresh stmt).graph.edges :=
    (mem_edges_splice hloc).2 (.inl ⟨e, he, rfl⟩)
  have hinserted : f.insertedEdge loc fresh stmt ∈ (f.splice loc fresh stmt).graph.edges :=
    (mem_edges_splice hloc).2 (.inr rfl)
  have hshown := f.not_parallelTo_rewire loc stmt hsrc hdst
  have hhidden := Edge.parallelTo_self (f.insertedEdge loc fresh stmt)
  rcases f.rewire_cases loc fresh stmt e with heq | ⟨rfl, heq, hins⟩ | ⟨rfl, heq, hins⟩
  · rw [heq] at hrewired hshown
    exact ⟨[e], .cons hrewired (.nil _), Multigraph.trace_cons_of_shown hshown⟩
  · rw [heq] at hrewired hshown
    rw [hins] at hinserted hhidden hshown ⊢
    refine ⟨[{ e with dst := fresh }, ⟨fresh, e.dst, stmt⟩],
      .cons hrewired (.cons hinserted (.nil _)), ?_⟩
    rw [Multigraph.trace_cons_of_shown hshown, Multigraph.trace_cons_of_hidden hhidden]
    rfl
  · rw [heq] at hrewired hshown
    rw [hins] at hinserted hhidden hshown ⊢
    refine ⟨[⟨e.src, fresh, stmt⟩, { e with src := fresh }],
      .cons hinserted (.cons hrewired (.nil _)), ?_⟩
    rw [Multigraph.trace_cons_of_hidden hhidden, Multigraph.trace_cons_of_shown hshown]
    rfl

/-- Takes the fresh location of an insertion for the old one. -/
def home (loc fresh x : Loc) : Loc := if x = fresh then loc else x

theorem home_fresh : home loc fresh fresh = loc := if_pos rfl

theorem home_of_ne {x : Loc} (h : x ≠ fresh) : home loc fresh x = x := if_neg h

theorem home_insertedEdge (stmt : Stmt) (hne : loc ≠ fresh) :
    home loc fresh (f.insertedEdge loc fresh stmt).src =
      home loc fresh (f.insertedEdge loc fresh stmt).dst := by
  rcases f.insertedEdge_cases loc fresh stmt with hins | hins
  · rw [hins, home_fresh, home_of_ne hne]
  · rw [hins, home_fresh, home_of_ne hne]

/-- A rewired edge is the old one if the fresh location is taken for the old one. -/
theorem home_rewire (hsrc : e.src ≠ fresh) (hdst : e.dst ≠ fresh) :
    (⟨home loc fresh (f.rewire loc fresh e).src, home loc fresh (f.rewire loc fresh e).dst,
      (f.rewire loc fresh e).label⟩ : Edge Loc Stmt) = e := by
  rcases f.rewire_cases loc fresh .skip e with heq | ⟨rfl, heq, -⟩ | ⟨rfl, heq, -⟩
  · rw [heq, home_of_ne hsrc, home_of_ne hdst]
  · rw [heq, home_of_ne hsrc, home_fresh]
  · rw [heq, home_of_ne hdst, home_fresh]

theorem ends_ne_of_mem (hfresh : fresh ∉ f.graph.nodes) (he : e ∈ f.edges) :
    e.src ≠ fresh ∧ e.dst ≠ fresh :=
  ⟨fun h => hfresh (h ▸ f.graph.src_mem e he), fun h => hfresh (h ▸ f.graph.dst_mem e he)⟩

/-- The ends of the new edge single it out. -/
theorem filter_parallelTo_insertedEdge (stmt : Stmt) (hloc : loc ∈ f.graph.nodes)
    (hfresh : fresh ∉ f.graph.nodes) :
    (f.splice loc fresh stmt).edges.filter (f.insertedEdge loc fresh stmt).parallelTo =
      [f.insertedEdge loc fresh stmt] := by
  have hold : (f.edges.map (f.rewire loc fresh)).filter
      (f.insertedEdge loc fresh stmt).parallelTo = [] := by
    refine List.filter_eq_nil_iff.2 (List.forall_mem_map.2 fun e he => ?_)
    obtain ⟨hsrc, hdst⟩ := ends_ne_of_mem hfresh he
    rw [f.not_parallelTo_rewire loc stmt hsrc hdst]
    exact Bool.false_ne_true
  rw [edges_splice hloc, List.filter_append, hold, List.nil_append,
    List.filter_cons_of_pos (Edge.parallelTo_self _), List.filter_nil]

/-- Between old locations the same statements can be met in the same order as before, if the new
edge does not count. -/
theorem exists_walk_iff_splice (stmt : Stmt) (hloc : loc ∈ f.graph.nodes)
    (hfresh : fresh ∉ f.graph.nodes) {a b : Loc} (ha : a ∈ f.graph.nodes) (hb : b ∈ f.graph.nodes)
    (stmts : List Stmt) :
    (∃ p, f.graph.Walk a p b ∧ p.map Edge.label = stmts) ↔
      ∃ p, (f.splice loc fresh stmt).graph.Walk a p b ∧
        Multigraph.trace (f.insertedEdge loc fresh stmt).parallelTo p = stmts := by
  have hne : ∀ {x}, x ∈ f.graph.nodes → x ≠ fresh := fun hx h => hfresh (h ▸ hx)
  constructor
  · rintro ⟨p, hwalk, rfl⟩
    refine hwalk.expand fun e he => ?_
    obtain ⟨hsrc, hdst⟩ := ends_ne_of_mem hfresh he
    exact exists_walk_splice stmt hloc he hsrc hdst
  · rintro ⟨p, hwalk, rfl⟩
    have hhidden : ∀ e ∈ (f.splice loc fresh stmt).graph.edges,
        (f.insertedEdge loc fresh stmt).parallelTo e = true →
        home loc fresh e.src = home loc fresh e.dst := by
      intro e _ hparallel
      obtain ⟨hsrc, hdst⟩ := of_decide_eq_true hparallel
      rw [hsrc, hdst, home_insertedEdge stmt (hne hloc)]
    have hshown : ∀ e ∈ (f.splice loc fresh stmt).graph.edges,
        (f.insertedEdge loc fresh stmt).parallelTo e = false →
        ⟨home loc fresh e.src, home loc fresh e.dst, e.label⟩ ∈ f.graph.edges := by
      intro e he hother
      rcases (mem_edges_splice hloc).1 he with ⟨e₀, he₀, rfl⟩ | rfl
      · obtain ⟨hsrc, hdst⟩ := ends_ne_of_mem hfresh he₀
        rw [home_rewire hsrc hdst]
        exact he₀
      · rw [Edge.parallelTo_self] at hother
        cases hother
    obtain ⟨q, hq, htrace⟩ := hwalk.contract (home loc fresh) hhidden hshown
    rw [home_of_ne (hne ha), home_of_ne (hne hb)] at hq
    exact ⟨q, hq, htrace⟩

/-- An insertion at a location succeeds with the fresh location.  At an exit or a loop head the
edges that lead there, back edges apart, lead to the fresh location afterwards, from which the new
edge leads to the old one.  Elsewhere the edges that leave the location leave from the fresh one
afterwards, to which the new edge leads.  The walks between old locations have the same statements
as before, in the same order, if the new edge is left out. -/
theorem addStmtAt_keeps_traces (supply : LocSupply) (stmt : Stmt) (hloc : loc ∈ f.graph.nodes)
    (hfresh : supply.fresh.1 ∉ f.graph.nodes) :
    ∃ (f' : FlowGraph) (new : Edge Loc Stmt),
      f.addStmtAt supply loc stmt = .ok (supply.fresh.1, f', supply.fresh.2) ∧
      (f.isExit loc = true ∨ loc ∈ f.loopHeads.toList →
        new = ⟨supply.fresh.1, loc, stmt⟩ ∧
        f'.edges = (f.edges.map fun e =>
          if e.dst = loc ∧ (e.src, loc) ∉ f.backEdges then { e with dst := supply.fresh.1 }
          else e) ++ [new]) ∧
      (¬(f.isExit loc = true ∨ loc ∈ f.loopHeads.toList) →
        new = ⟨loc, supply.fresh.1, stmt⟩ ∧
        f'.edges = (f.edges.map fun e =>
          if e.src = loc then { e with src := supply.fresh.1 } else e) ++ [new]) ∧
      f'.edges.filter new.parallelTo = [new] ∧
      ∀ a ∈ f.graph.nodes, ∀ b ∈ f.graph.nodes, ∀ stmts,
        (∃ p, f.graph.Walk a p b ∧ p.map Edge.label = stmts) ↔
          ∃ p, f'.graph.Walk a p b ∧ Multigraph.trace new.parallelTo p = stmts := by
  refine ⟨f.splice loc supply.fresh.1 stmt, f.insertedEdge loc supply.fresh.1 stmt,
    addStmtAt_of_mem stmt supply hloc, fun hbefore => ?_, fun hafter => ?_,
    filter_parallelTo_insertedEdge stmt hloc hfresh,
    fun a ha b hb => exists_walk_iff_splice stmt hloc hfresh ha hb⟩
  · rw [← splicesBefore_iff] at hbefore
    refine ⟨if_pos hbefore, (edges_splice hloc).trans ?_⟩
    refine congrArg (· ++ _) (List.map_congr_left fun e _ => ?_)
    rw [rewire, if_pos hbefore]
    exact if_congr isMoved_iff rfl rfl
  · rw [← splicesBefore_iff] at hafter
    refine ⟨if_neg hafter, (edges_splice hloc).trans ?_⟩
    exact congrArg (· ++ _) (List.map_congr_left fun e _ => if_neg hafter)

/-- The statement before a small loop. -/
def countStart : Stmt := .assign "i" (Demo.number 21)

/-- The body of the loop. -/
def countStep : Stmt := .assign "i" (.binary .add (.var "i") (Demo.number 22))

/-- The guard after the loop. -/
def countGuard : Stmt := Demo.guard .lt "i" 23

/-- A loop whose body is one statement. -/
def selfLoop : FlowGraph :=
  empty
    |>.addEdge .entry (.id 0) countStart
    |>.addEdge (.id 0) (.id 0) countStep
    |>.addEdge (.id 0) .exit countGuard

/-- Around an insertion at the head of the loop, and around one at the entry, the loop can be walked
twice as before.  The first one goes before the head, the other one after the entry. -/
theorem addStmtAt_keeps_traces_selfLoop :
    (Loc.id 0 ∈ selfLoop.loopHeads.toList ∧ ∃ f',
      selfLoop.addStmtAt ⟨1⟩ (.id 0) .skip = .ok (.id 1, f', ⟨2⟩) ∧
      ∃ p, f'.graph.Walk .entry p .exit ∧
        Multigraph.trace (Edge.parallelTo ⟨.id 1, .id 0, .skip⟩) p =
          [countStart, countStep, countStep, countGuard]) ∧
    Loc.entry ∉ selfLoop.loopHeads.toList ∧ ∃ f',
      selfLoop.addStmtAt ⟨1⟩ .entry .skip = .ok (.id 1, f', ⟨2⟩) ∧
      ∃ p, f'.graph.Walk .entry p .exit ∧
        Multigraph.trace (Edge.parallelTo ⟨.entry, .id 1, .skip⟩) p =
          [countStart, countStep, countStep, countGuard] := by
  have hfacts : Loc.id 0 ∈ selfLoop.loopHeads.toList ∧ Loc.entry ∉ selfLoop.loopHeads.toList ∧
      selfLoop.isExit .entry = false ∧ Loc.id 0 ∈ selfLoop.graph.nodes ∧
      Loc.entry ∈ selfLoop.graph.nodes ∧ Loc.exit ∈ selfLoop.graph.nodes ∧
      Loc.id 1 ∉ selfLoop.graph.nodes := by
    decide +kernel
  obtain ⟨hhead, hplain, hinner, hloc, hentry, hexit, hfresh⟩ := hfacts
  have hfirst : (⟨.entry, .id 0, countStart⟩ : Edge Loc Stmt) ∈ selfLoop.graph.edges := .head _
  have hbody : (⟨.id 0, .id 0, countStep⟩ : Edge Loc Stmt) ∈ selfLoop.graph.edges :=
    .tail _ (.head _)
  have hlast : (⟨.id 0, .exit, countGuard⟩ : Edge Loc Stmt) ∈ selfLoop.graph.edges :=
    .tail _ (.tail _ (.head _))
  have hwalk : ∃ p, selfLoop.graph.Walk .entry p .exit ∧
      p.map Edge.label = [countStart, countStep, countStep, countGuard] :=
    ⟨_, .cons hfirst (.cons hbody (.cons hbody (.cons hlast (.nil _)))), rfl⟩
  refine ⟨⟨hhead, ?_⟩, hplain, ?_⟩
  · obtain ⟨f', new, hadd, hbefore, -, -, htraces⟩ :=
      addStmtAt_keeps_traces ⟨1⟩ .skip hloc hfresh
    obtain ⟨rfl, -⟩ := hbefore (.inr hhead)
    exact ⟨f', hadd, (htraces _ hentry _ hexit _).1 hwalk⟩
  · obtain ⟨f', new, hadd, -, hafter, -, htraces⟩ :=
      addStmtAt_keeps_traces ⟨1⟩ .skip hentry hfresh
    obtain ⟨rfl, -⟩ := hafter (by simp [hinner, hplain])
    exact ⟨f', hadd, (htraces _ hentry _ hexit _).1 hwalk⟩

end FlowGraph

end Demanded
