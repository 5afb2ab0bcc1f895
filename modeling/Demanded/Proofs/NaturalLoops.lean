import Demanded.FlowGraph.Loops
import Demanded.Proofs.InsertedPaths

/-!
# Natural loops and their members

The natural loop of a pair of locations is found by going from the source against the edges, never
through the head.  `FlowGraph.Explores` is what each step of this search keeps: what was found can
reach the source, and what leads to a location that was looked at was found.  A step looks at one
location more and finds each one once, so the search ends (`FlowGraph.frontier_searchLoop`).

So a natural loop has the locations from which a walk leads to the source and keeps off the head
(`FlowGraph.mem_naturalLoop`), whether the pair is a back edge or not.  It is the closure of the
source under going back, in rounds (`FlowGraph.saturate_sourcesOff`).

The heads around a location are collected back edge by back edge, and they are the heads of the
natural loops that have the location (`FlowGraph.mem_headsOf`).
-/

namespace Demanded

universe u v

/-! ## Walks that keep off a node -/

namespace Multigraph

variable {N : Type u} {E : Type v}

/-- A walk from `a` to `b`, which may have no edge, never visits `off`. -/
def ReachesOff (g : Multigraph N E) (off a b : N) : Prop :=
  a ≠ off ∧ ∃ p, g.Walk a p b ∧ ∀ e ∈ p, e.dst ≠ off

variable {g : Multigraph N E} {off a b c : N}

theorem ReachesOff.refl (h : a ≠ off) : g.ReachesOff off a a :=
  ⟨h, [], .nil a, fun _ he => absurd he List.not_mem_nil⟩

theorem ReachesOff.head (hab : g.Leads a b) (ha : a ≠ off) (h : g.ReachesOff off b c) :
    g.ReachesOff off a c := by
  obtain ⟨e, he, rfl, rfl⟩ := hab
  obtain ⟨hb, p, hp, hoff⟩ := h
  exact ⟨ha, e :: p, .cons he hp, List.forall_mem_cons.2 ⟨hb, hoff⟩⟩

/-- A walk that keeps off a node does not end there. -/
theorem ReachesOff.ne (h : g.ReachesOff off a b) : b ≠ off := by
  obtain ⟨ha, p, hp, hoff⟩ := h
  induction hp with
  | nil a => exact ha
  | cons _ _ ih =>
    obtain ⟨hdst, hrest⟩ := List.forall_mem_cons.1 hoff
    exact ih hdst hrest

/-- Keeping off a node, a walk may as well be gone backwards, edge by edge. -/
theorem reachesOff_iff (hb : b ≠ off) :
    g.ReachesOff off a b ↔ Relation.ReflTransGen (fun y x => g.Leads x y ∧ x ≠ off) b a := by
  constructor
  · rintro ⟨ha, p, hp, hoff⟩
    induction hp with
    | nil a => exact .refl
    | @cons e p b he _ ih =>
      obtain ⟨hdst, hrest⟩ := List.forall_mem_cons.1 hoff
      exact (ih hb hdst hrest).tail ⟨⟨e, he, rfl, rfl⟩, ha⟩
  · intro h
    induction h with
    | refl => exact .refl hb
    | tail _ hstep ih => exact ih.head hstep.1 hstep.2

end Multigraph

namespace FlowGraph

variable {f : FlowGraph} {src dst x : Loc}

/-! ## Going back -/

/-- The locations other than `dst` from which statements lead to `loc`. -/
def sourcesOff (f : FlowGraph) (dst loc : Loc) : List Loc :=
  (f.predecessors loc).filter fun p => decide (p ≠ dst)

theorem mem_predecessors {loc : Loc} : x ∈ f.predecessors loc ↔ f.graph.Leads x loc := by
  refine Multigraph.mem_predecessors.trans ?_
  simp only [Multigraph.Leads, and_comm]

theorem mem_sourcesOff {loc : Loc} : x ∈ f.sourcesOff dst loc ↔ f.graph.Leads x loc ∧ x ≠ dst := by
  rw [sourcesOff, List.mem_filter, decide_eq_true_iff, mem_predecessors]

/-- With as many rounds as there are locations the closure has where the walks to the source come
from, those through the head apart. -/
theorem mem_saturate_sourcesOff (h : src ≠ dst) {rounds : Nat} (hrounds : f.numLocs ≤ rounds) :
    x ∈ (saturate (f.sourcesOff dst) rounds (OrdSet.singleton src)).toList ↔
      f.graph.ReachesOff dst x src := by
  rw [Multigraph.reachesOff_iff h]
  simp only [← mem_sourcesOff]
  by_cases hsrc : src ∈ f.graph.nodes
  · have hall : (OrdSet.singleton src).toList ⊆ f.graph.nodes := by
      intro y hy
      rw [OrdSet.mem_singleton.1 hy]
      exact hsrc
    have hlen : f.graph.nodes.length < rounds + (OrdSet.singleton src).size :=
      Nat.lt_succ_of_le hrounds
    rw [mem_saturate_iff hall (fun a _ b hb => (mem_sourcesOff.1 hb).1.src_mem) hlen]
    simp only [OrdSet.mem_singleton, exists_eq_left]
  · -- nothing leads to what is no location, so the source is all there is
    refine ⟨fun hx => ?_, fun hx => ?_⟩
    · obtain ⟨y, hy, hpath⟩ := exists_of_mem_saturate rounds hx
      rwa [OrdSet.mem_singleton.1 hy] at hpath
    · rcases Relation.ReflTransGen.cases_head hx with rfl | ⟨y, hy, -⟩
      · exact mem_saturate_of_mem rounds (OrdSet.mem_singleton.2 rfl)
      · exact absurd (mem_sourcesOff.1 hy).1.dst_mem hsrc

/-! ## The search -/

section Visits

open LoopSearch

variable {s : LoopSearch} {preds : List Loc}

theorem mem_body_visits :
    x ∈ (preds.foldl (visit src dst) s).body.toList ↔
      x ∈ s.body.toList ∨ x ∈ preds ∧ x ≠ src ∧ x ≠ dst := by
  induction preds generalizing s with
  | nil => simp
  | cons pred rest ih =>
    have hvisit : x ∈ (visit src dst s pred).body.toList ↔
        x ∈ s.body.toList ∨ x = pred ∧ x ≠ src ∧ x ≠ dst := by
      simp only [visit, OrdSet.contains_eq_false]
      split
      · rw [OrdSet.mem_add]
        grind
      · grind
    rw [List.foldl_cons, ih, hvisit, List.mem_cons, or_and_right, or_assoc]

theorem mem_frontier_visits :
    x ∈ (preds.foldl (visit src dst) s).frontier ↔
      x ∈ s.frontier ∨ (x ∈ preds ∧ x ≠ src ∧ x ≠ dst) ∧ x ∉ s.body.toList := by
  induction preds generalizing s with
  | nil => simp
  | cons pred rest ih =>
    simp only [List.foldl_cons, ih, visit, OrdSet.contains_eq_false]
    split
    · rw [OrdSet.mem_add]
      grind
    · grind

/-- What a search may still have to look at: what waits, and what was not found. -/
def work (f : FlowGraph) (s : LoopSearch) : Nat :=
  s.frontier.length + (f.graph.nodes.filter fun x => !OrdMap.contains s.body x).length

/-- What is found is not missing any more. -/
theorem work_visits_le (h : ∀ pred ∈ preds, pred ∈ f.graph.nodes) :
    f.work (preds.foldl (visit src dst) s) ≤ f.work s := by
  induction preds generalizing s with
  | nil => exact Nat.le_refl _
  | cons pred rest ih =>
    obtain ⟨hpred, hrest⟩ := List.forall_mem_cons.1 h
    refine Nat.le_trans (ih hrest) ?_
    rw [visit]
    split
    · rename_i hnew
      have hfewer := OrdSet.length_filter_add_lt hpred (OrdSet.contains_eq_false.1 hnew.2.2)
      simp only [work, List.length_cons]
      omega
    · exact Nat.le_refl _

end Visits

/-- What a search keeps: it has the source, it finds only what can reach the source, and it has
found what leads to a location that it looked at. -/
structure Explores (f : FlowGraph) (src dst : Loc) (s : LoopSearch) : Prop where
  source : src ∈ s.body.toList
  reaches : ∀ x ∈ s.body.toList, f.graph.ReachesOff dst x src
  waits : ∀ x ∈ s.frontier, x ∈ s.body.toList
  closed : ∀ x ∈ s.body.toList, x ∉ s.frontier → ∀ y ∈ f.sourcesOff dst x, y ∈ s.body.toList

namespace Explores

variable {s : LoopSearch}

theorem start (h : src ≠ dst) : f.Explores src dst (.start src) where
  source := OrdSet.mem_singleton.2 rfl
  reaches _ hx := (OrdSet.mem_singleton.1 hx).symm ▸ .refl h
  waits _ hx := OrdSet.mem_singleton.2 (List.mem_singleton.1 hx)
  closed _ hx hnot := absurd (List.mem_singleton.2 (OrdSet.mem_singleton.1 hx)) hnot

/-- A step looks at one location. -/
theorem step {loc : Loc} {rest : List Loc} (h : f.Explores src dst s)
    (hfrontier : s.frontier = loc :: rest) :
    f.Explores src dst ((f.predecessors loc).foldl (LoopSearch.visit src dst) ⟨s.body, rest⟩) := by
  have hloc : loc ∈ s.body.toList := h.waits loc (hfrontier ▸ List.mem_cons_self)
  refine ⟨mem_body_visits.2 (.inl h.source), fun x hx => ?_, fun x hx => ?_,
    fun x hx hnot y hy => ?_⟩
  · rcases mem_body_visits.1 hx with hx | ⟨hx, -, hne⟩
    · exact h.reaches x hx
    · exact (h.reaches loc hloc).head (mem_predecessors.1 hx) hne
  · rcases mem_frontier_visits.1 hx with hx | ⟨hx, -⟩
    · exact mem_body_visits.2 (.inl (h.waits x (hfrontier ▸ List.mem_cons_of_mem loc hx)))
    · exact mem_body_visits.2 (.inr hx)
  · -- a location that does not wait was found before this step
    rw [mem_frontier_visits, not_or] at hnot
    have hbody : x ∈ s.body.toList := by
      by_contra hout
      exact hnot.2 ⟨(mem_body_visits.1 hx).resolve_left hout, hout⟩
    by_cases hxloc : x = loc
    · subst hxloc
      by_cases hysrc : y = src
      · exact mem_body_visits.2 (.inl (hysrc ▸ h.source))
      · obtain ⟨hleads, hne⟩ := mem_sourcesOff.1 hy
        exact mem_body_visits.2 (.inr ⟨mem_predecessors.2 hleads, hysrc, hne⟩)
    · refine mem_body_visits.2 (.inl (h.closed x hbody ?_ y hy))
      rw [hfrontier, List.mem_cons, not_or]
      exact ⟨hxloc, hnot.1⟩

theorem searchLoop (h : f.Explores src dst s) (fuel : Nat) :
    f.Explores src dst (f.searchLoop src dst fuel s) := by
  induction fuel generalizing s with
  | zero => exact h
  | succ fuel ih =>
    rw [FlowGraph.searchLoop]
    split
    · exact h
    · rename_i hfrontier
      exact ih (h.step hfrontier)

/-- A search that is over has found all that can reach the source. -/
theorem mem_body_iff (h : f.Explores src dst s) (hne : src ≠ dst) (hdone : s.frontier = []) :
    x ∈ s.body.toList ↔ f.graph.ReachesOff dst x src := by
  refine ⟨h.reaches x, fun hx => ?_⟩
  rw [Multigraph.reachesOff_iff hne] at hx
  induction hx with
  | refl => exact h.source
  | tail _ hstep ih =>
    exact h.closed _ ih (hdone ▸ List.not_mem_nil) _ (mem_sourcesOff.2 hstep)

end Explores

/-- A search that may look at all that is left comes to its end. -/
theorem frontier_searchLoop {s : LoopSearch} {fuel : Nat} (h : f.work s ≤ fuel) :
    (f.searchLoop src dst fuel s).frontier = [] := by
  induction fuel generalizing s with
  | zero =>
    rw [work] at h
    exact List.length_eq_zero_iff.1 (by rw [searchLoop]; omega)
  | succ fuel ih =>
    rw [searchLoop]
    split
    · assumption
    · rename_i loc rest hfrontier
      refine ih (Nat.le_trans (work_visits_le fun pred hpred => ?_) ?_)
      · exact (mem_predecessors.1 hpred).src_mem
      · simp only [work, hfrontier, List.length_cons] at h ⊢
        omega

theorem work_start_le (f : FlowGraph) (src : Loc) : f.work (.start src) ≤ f.numLocs + 1 := by
  have hle :=
    List.length_filter_le (fun x => !OrdMap.contains (OrdSet.singleton src) x) f.graph.nodes
  rw [work, Nat.add_comm]
  exact Nat.add_le_add_right hle 1

/-! ## Natural loops -/

theorem naturalLoop_self (f : FlowGraph) (loc : Loc) : f.naturalLoop loc loc = ∅ := if_pos rfl

/-- The search is over once it may look at more locations than there are, and it has found where the
walks to the source come from, those through the head apart. -/
theorem searchLoop_start (h : src ≠ dst) {fuel : Nat} (hfuel : f.numLocs < fuel) :
    (f.searchLoop src dst fuel (.start src)).frontier = [] ∧
      ∀ x, x ∈ (f.searchLoop src dst fuel (.start src)).body.toList ↔
        f.graph.ReachesOff dst x src := by
  have hdone : (f.searchLoop src dst fuel (.start src)).frontier = [] :=
    frontier_searchLoop (Nat.le_trans (f.work_start_le src) hfuel)
  exact ⟨hdone, fun x => ((Explores.start h).searchLoop fuel).mem_body_iff h hdone⟩

/-- A natural loop has the locations from which a walk leads to its source and keeps off its
head. -/
theorem mem_naturalLoop : x ∈ (f.naturalLoop src dst).toList ↔ f.graph.ReachesOff dst x src := by
  by_cases h : src = dst
  · subst h
    rw [naturalLoop_self]
    exact ⟨fun hx => absurd hx (OrdSet.notMem_empty x), fun hx => absurd rfl hx.ne⟩
  · rw [naturalLoop, if_neg h]
    exact (searchLoop_start h (Nat.lt_succ_self _)).2 x

/-- A natural loop is the closure of its source, if there are as many rounds as locations. -/
theorem saturate_sourcesOff (h : src ≠ dst) {rounds : Nat} (hrounds : f.numLocs ≤ rounds) :
    saturate (f.sourcesOff dst) rounds (OrdSet.singleton src) = f.naturalLoop src dst :=
  OrdSet.ext_mem fun _ => (mem_saturate_sourcesOff h hrounds).trans mem_naturalLoop.symm

/-! ## Members -/

/-- The heads that a map has for a location. -/
def headsIn (m : OrdMap Loc (OrdSet Loc)) (x : Loc) : OrdSet Loc := (m.get? x).getD ∅

/-- Adds a head for a location. -/
def addHead (head : Loc) (m : OrdMap Loc (OrdSet Loc)) (loc : Loc) : OrdMap Loc (OrdSet Loc) :=
  m.insert loc ((headsIn m loc).add head)

/-- Adds the head of an edge for the locations of its natural loop. -/
def addLoop (f : FlowGraph) (m : OrdMap Loc (OrdSet Loc)) (edge : Loc × Loc) :
    OrdMap Loc (OrdSet Loc) :=
  (f.naturalLoop edge.1 edge.2).toList.foldl (addHead edge.2) m

theorem headsOf_eq (f : FlowGraph) (x : Loc) :
    f.headsOf x = headsIn (f.backEdges.foldl f.addLoop ∅) x := rfl

variable {m : OrdMap Loc (OrdSet Loc)} {head k : Loc}

theorem mem_headsIn_addHead {loc : Loc} :
    k ∈ (headsIn (addHead head m loc) x).toList ↔
      k ∈ (headsIn m x).toList ∨ x = loc ∧ k = head := by
  rw [headsIn, addHead, OrdMap.get?_insert_eq]
  by_cases hx : x = loc
  · rw [if_pos hx, Option.getD_some, OrdSet.mem_add, hx, or_comm]
    simp
  · rw [if_neg hx]
    simp [headsIn, hx]

theorem mem_headsIn_foldl_addHead {locs : List Loc} :
    k ∈ (headsIn (locs.foldl (addHead head) m) x).toList ↔
      k ∈ (headsIn m x).toList ∨ x ∈ locs ∧ k = head := by
  induction locs generalizing m with
  | nil => simp
  | cons loc rest ih =>
    rw [List.foldl_cons, ih, mem_headsIn_addHead, List.mem_cons, or_and_right, or_assoc]

theorem mem_headsIn_foldl_addLoop {edges : List (Loc × Loc)} :
    k ∈ (headsIn (edges.foldl f.addLoop m) x).toList ↔
      k ∈ (headsIn m x).toList ∨
        ∃ edge ∈ edges, x ∈ (f.naturalLoop edge.1 edge.2).toList ∧ k = edge.2 := by
  induction edges generalizing m with
  | nil => simp
  | cons edge rest ih =>
    rw [List.foldl_cons, ih, addLoop, mem_headsIn_foldl_addHead, List.exists_mem_cons_iff, or_assoc]

/-- The heads around a location are those of the natural loops that have it. -/
theorem mem_headsOf :
    head ∈ (f.headsOf x).toList ↔
      ∃ src, (src, head) ∈ f.backEdges ∧ x ∈ (f.naturalLoop src head).toList := by
  have hnone : head ∉ (headsIn ∅ x).toList := OrdSet.notMem_empty head
  rw [headsOf_eq, mem_headsIn_foldl_addLoop, or_iff_right hnone]
  constructor
  · rintro ⟨⟨src, dst⟩, hedge, hx, rfl⟩
    exact ⟨src, hedge, hx⟩
  · rintro ⟨src, hedge, hx⟩
    exact ⟨(src, head), hedge, hx, rfl⟩

/-- The natural loop of a pair is empty if the pair is one location.  Otherwise the search for it is
over once each location was looked at, and whatever more it may look at, it finds the same: the
closure of the source under going back, in as many rounds as there are locations or more.  This has
the locations from which a walk leads to the source and never visits the head.  The heads around a
location are those of the back edges whose natural loops have it, and it is none of them. -/
theorem natural_loops_by_walks (f : FlowGraph) :
    (∀ loc, f.naturalLoop loc loc = ∅) ∧
      (∀ src dst, src ≠ dst →
        (∀ fuel, f.numLocs < fuel →
          (f.searchLoop src dst fuel (.start src)).frontier = [] ∧
          (f.searchLoop src dst fuel (.start src)).body = f.naturalLoop src dst) ∧
        (∀ rounds, f.numLocs ≤ rounds →
          saturate (f.sourcesOff dst) rounds (OrdSet.singleton src) = f.naturalLoop src dst) ∧
        ∀ x, x ∈ (f.naturalLoop src dst).toList ↔
          x ≠ dst ∧ ∃ p, f.graph.Walk x p src ∧ ∀ e ∈ p, e.dst ≠ dst) ∧
      (∀ x head, head ∈ (f.headsOf x).toList ↔
        ∃ src, (src, head) ∈ f.backEdges ∧ x ∈ (f.naturalLoop src head).toList) ∧
      ∀ x, x ∉ (f.headsOf x).toList := by
  refine ⟨f.naturalLoop_self, fun src dst h => ⟨fun fuel hfuel => ?_,
    fun rounds => saturate_sourcesOff h, fun x => mem_naturalLoop⟩,
    fun x head => mem_headsOf, fun x hx => ?_⟩
  · obtain ⟨hdone, hbody⟩ := searchLoop_start h hfuel
    exact ⟨hdone, OrdSet.ext_mem fun x => (hbody x).trans mem_naturalLoop.symm⟩
  · obtain ⟨src, -, hmem⟩ := mem_headsOf.1 hx
    exact (mem_naturalLoop.1 hmem).1 rfl

/-- A loop inside another one, both with the same last statement, and a statement that leads into
them from a location where nothing leads. -/
def nestedLoops : FlowGraph :=
  empty
    |>.addEdge .entry (.id 0) .skip
    |>.addEdge (.id 0) (.id 1) .skip
    |>.addEdge (.id 1) (.id 2) .skip
    |>.addEdge (.id 2) (.id 1) .skip
    |>.addEdge (.id 2) (.id 0) .skip
    |>.addEdge (.id 3) (.id 2) .skip

/-- The location that no execution reaches lies in both loops, because a walk leads from it to their
last location.  The inner head lies in the outer loop only. -/
theorem natural_loops_by_walks_nestedLoops :
    (.id 2, .id 1) ∈ nestedLoops.backEdges ∧
      Loc.id 1 ∈ (nestedLoops.headsOf (.id 3)).toList ∧
      (∃ p, nestedLoops.graph.Walk (.id 3) p (.id 2) ∧ ∀ e ∈ p, e.dst ≠ .id 1) ∧
      (nestedLoops.headsOf (.id 1)).toList = [.id 0] ∧
      Loc.id 1 ∉ (nestedLoops.headsOf (.id 1)).toList := by
  obtain ⟨-, hloop, hheads, hself⟩ := natural_loops_by_walks nestedLoops
  have hback : (.id 2, .id 1) ∈ nestedLoops.backEdges := by decide +kernel
  have hmem : Loc.id 3 ∈ (nestedLoops.naturalLoop (.id 2) (.id 1)).toList := by decide +kernel
  obtain ⟨-, hwalk⟩ := ((hloop (.id 2) (.id 1) (by decide)).2.2 (.id 3)).1 hmem
  exact ⟨hback, (hheads _ _).2 ⟨_, hback, hmem⟩, hwalk, by decide +kernel, hself _⟩

end FlowGraph

end Demanded
