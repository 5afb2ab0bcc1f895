import Demanded.Proofs.DepthFirst
import Demanded.Proofs.InsertedPaths

/-!
# Back edges cut the cycles

Deleting the back edges of a graph leaves no cycle.  The numbering of `Multigraph.exists_rank`
ascends along every edge that is left, so a walk that comes back to where it started has no edge
(`Walk.rank_add_length_le`).  Which pairs have to be deleted for that is the same as which pairs
every cycle takes (`acyclic_without_iff`), so every cycle of the graph takes a back edge.

No other pair is listed in vain: each back edge is an edge and lies on a cycle.  And none is listed
twice, since the search looks before it records (`nodup_backEdges`).
-/

namespace Demanded.Multigraph

universe u v

variable {N : Type u} {E : Type v}

/-! ## Graphs without cycles -/

section Walks

variable {g g' : Multigraph N E} {a b : N} {p : List (Edge N E)}

theorem Walk.mem_edges (h : g.Walk a p b) : ∀ e ∈ p, e ∈ g.edges := by
  induction h with
  | nil a => exact fun e he => absurd he List.not_mem_nil
  | cons he _ ih => exact List.forall_mem_cons.2 ⟨he, ih⟩

theorem Walk.of_mem_edges (h : g.Walk a p b) (hp : ∀ e ∈ p, e ∈ g'.edges) : g'.Walk a p b := by
  induction h with
  | nil a => exact .nil a
  | cons he _ ih =>
    obtain ⟨hhead, hrest⟩ := List.forall_mem_cons.1 hp
    exact .cons hhead (ih hrest)

/-- Along a walk whose edges ascend the numbers grow at least by one for each edge. -/
theorem Walk.rank_add_length_le {rank : N → Nat} (h : g.Walk a p b)
    (hrank : ∀ e ∈ p, rank e.src < rank e.dst) : rank a + p.length ≤ rank b := by
  induction h with
  | nil a => simp
  | @cons e p b _ _ ih =>
    obtain ⟨hhead, hrest⟩ := List.forall_mem_cons.1 hrank
    have hle := ih hrest
    rw [List.length_cons]
    omega

/-- Only the walk without edges comes back to where it started. -/
def Acyclic (g : Multigraph N E) : Prop := ∀ x p, g.Walk x p x → p = []

/-- A graph whose edges ascend in some numbering has no cycle. -/
theorem acyclic_of_rank (rank : N → Nat) (h : ∀ e ∈ g.edges, rank e.src < rank e.dst) :
    g.Acyclic := by
  intro x p hp
  have hle := hp.rank_add_length_le fun e he => h e (hp.mem_edges e he)
  exact List.length_eq_zero_iff.1 (by omega)

variable [DecidableEq N]

/-- The graph without the edges between given pairs of nodes. -/
def without (g : Multigraph N E) (pairs : List (N × N)) : Multigraph N E :=
  { g with
    edges := g.edges.filter fun e => !pairs.contains (e.src, e.dst)
    recent := g.recent.filter fun e => !pairs.contains (e.src, e.dst)
    perm := g.perm.filter _
    src_mem := fun e he => g.src_mem e (List.mem_filter.1 he).1
    dst_mem := fun e he => g.dst_mem e (List.mem_filter.1 he).1 }

theorem mem_edges_without {pairs : List (N × N)} {e : Edge N E} :
    e ∈ (g.without pairs).edges ↔ e ∈ g.edges ∧ (e.src, e.dst) ∉ pairs := by
  simp [without]

/-- Deleting the edges between some pairs leaves no cycle exactly if every cycle takes one of
them. -/
theorem acyclic_without_iff {pairs : List (N × N)} :
    (g.without pairs).Acyclic ↔
      ∀ x p, g.Walk x p x → p ≠ [] → ∃ e ∈ p, (e.src, e.dst) ∈ pairs := by
  constructor
  · intro h x p hp hne
    by_contra hnone
    refine hne (h x p (hp.of_mem_edges fun e he => ?_))
    exact mem_edges_without.2 ⟨hp.mem_edges e he, fun hmem => hnone ⟨e, he, hmem⟩⟩
  · intro h x p hp
    by_contra hne
    have hold : g.Walk x p x :=
      hp.of_mem_edges fun e he => (mem_edges_without.1 (hp.mem_edges e he)).1
    obtain ⟨e, he, hmem⟩ := h x p hold hne
    exact (mem_edges_without.1 (hp.mem_edges e he)).2 hmem

end Walks

/-! ## Recorded edges -/

section Recorded

variable [DecidableEq N] {next : N → List N} {P : List (N × N) → Prop}

/-- What holds of the recorded edges and is kept when one is recorded holds after a visit. -/
theorem back_visit (hrecord : ∀ (s : Search N) edge, P s.back → P (s.record edge).back)
    (fuel : Nat) (path : List N) (n : N) (s : Search N) (hs : P s.back) :
    P (visit next fuel path n s).back := by
  induction fuel generalizing path n s with
  | zero => exact hs
  | succ fuel ih =>
    rw [visit_succ]
    refine List.foldlRecOn (next n) (follow next fuel path n) (motive := fun s => P s.back) hs ?_
    intro s hs m _
    rw [follow]
    split
    · exact hrecord s (n, m) hs
    · split
      · exact hs
      · exact ih (n :: path) m s hs

theorem back_depthFirst (hrecord : ∀ (s : Search N) edge, P s.back → P (s.record edge).back)
    (hnil : P []) (fuel : Nat) (starts : List N) : P (depthFirst next fuel starts).back := by
  have hstart : P (⟨[], []⟩ : Search N).back := hnil
  rw [depthFirst_eq]
  refine List.foldlRecOn starts (restart next fuel) (motive := fun s => P s.back) hstart ?_
  intro s hs n _
  rw [restart]
  split
  · exact hs
  · exact back_visit hrecord fuel [] n s hs

theorem nodup_back_record (s : Search N) (edge : N × N) (h : s.back.Nodup) :
    (s.record edge).back.Nodup := by
  rw [Search.record]
  split
  · exact h
  · rename_i hnew
    rw [← List.concat_eq_append]
    exact h.concat hnew

end Recorded

/-! ## Back edges -/

variable [DecidableEq N] [Ord N] [Std.TransOrd N] [Std.LawfulEqOrd N]

omit [Std.LawfulEqOrd N] in
/-- No back edge is listed twice. -/
theorem nodup_backEdges (g : Multigraph N E) : g.backEdges.Nodup :=
  back_depthFirst nodup_back_record List.nodup_nil _ _

theorem acyclic_without_backEdges (g : Multigraph N E) : (g.without g.backEdges).Acyclic := by
  obtain ⟨rank, -, hrank⟩ := exists_rank g
  refine acyclic_of_rank rank fun e he => ?_
  obtain ⟨hmem, hkept⟩ := mem_edges_without.1 he
  exact (hrank e.src e.dst ⟨e, hmem, rfl, rfl⟩).resolve_left hkept

/-- The back edges of a graph are listed once each, each of them is an edge whose end leads back to
its start, and without them there is no cycle, so that every cycle of the graph takes one of
them. -/
theorem backEdges_cut_cycles (g : Multigraph N E) :
    g.backEdges.Nodup ∧
      (∀ src dst, (src, dst) ∈ g.backEdges → g.Leads src dst ∧ g.Reaches dst src) ∧
      (g.without g.backEdges).Acyclic ∧
      ∀ x p, g.Walk x p x → p ≠ [] → ∃ e ∈ p, (e.src, e.dst) ∈ g.backEdges := by
  have hacyclic := acyclic_without_backEdges g
  refine ⟨nodup_backEdges g, fun src dst h => ?_, hacyclic, acyclic_without_iff.1 hacyclic⟩
  exact ⟨leads_of_mem_backEdges h, reaches_of_mem_backEdges h⟩

/-- Two nodes lead to each other, one of them along two edges, and a third node leads to both.
Apart from them an edge was redirected to where it starts. -/
def tangle : Multigraph Nat Unit :=
  empty
    |>.addEdge 0 1 ()
    |>.addEdge 0 2 ()
    |>.addEdge 1 2 ()
    |>.addEdge 2 1 ()
    |>.addEdge 2 1 ()
    |>.addEdge 4 3 ()
    |>.redirectIn 3 4 fun _ => true

/-- One edge is listed for the cycles between the two nodes, and one for the edge that is a cycle by
itself. -/
theorem backEdges_cut_cycles_tangle :
    tangle.backEdges = [(1, 2), (4, 4)] ∧ (tangle.without [(1, 2), (4, 4)]).Acyclic ∧
      tangle.Walk 1 [⟨1, 2, ()⟩, ⟨2, 1, ()⟩] 1 ∧
      ∃ e ∈ [(⟨1, 2, ()⟩ : Edge Nat Unit), ⟨2, 1, ()⟩], (e.src, e.dst) ∈ tangle.backEdges := by
  have hback : tangle.backEdges = [(1, 2), (4, 4)] := by decide +kernel
  have hedges : tangle.edges =
      [⟨0, 1, ()⟩, ⟨0, 2, ()⟩, ⟨1, 2, ()⟩, ⟨2, 1, ()⟩, ⟨2, 1, ()⟩, ⟨4, 4, ()⟩] := rfl
  have hwalk : tangle.Walk 1 [⟨1, 2, ()⟩, ⟨2, 1, ()⟩] 1 :=
    .cons (e := ⟨1, 2, ()⟩) (by simp [hedges]) (.cons (e := ⟨2, 1, ()⟩) (by simp [hedges]) (.nil 1))
  obtain ⟨-, -, hacyclic, hcycles⟩ := backEdges_cut_cycles tangle
  refine ⟨hback, ?_, hwalk, hcycles 1 _ hwalk (List.cons_ne_nil _ _)⟩
  rwa [hback] at hacyclic

end Demanded.Multigraph
