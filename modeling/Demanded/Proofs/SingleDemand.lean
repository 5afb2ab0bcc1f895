import Demanded.Bounds.Demo
import Demanded.Proofs.Histories

/-!
# One demand

A demand answers for every node of a demanded graph and fails for every other name
(`DemandGraph.get_terminates`).  It computes each loop head once at most, and the log and the
counter of widenings agree on this.
-/

namespace Demanded.DemandGraph

variable {g : DemandGraph}

theorem Coherent.not_usable (h : g.Coherent) {loc : Loc}
    (hstable : g.isStable (.state loc) = false) (cell : Cell) :
    ¬Cells.Usable g.cells (g.pass + 1) loc cell := by
  intro hu
  rw [isStable, hu.1, Option.any_some, h.isFinal_of_usable hu] at hstable
  cases hstable

namespace Serves

variable {name : NodeName} {out : Outcome Resolved}

theorem fails_iff (h : g.Serves name out) :
    (∃ e, out.result = .error e) ↔ name ∉ g.skeleton.graph.nodes := by
  cases h with
  | refused hname => exact ⟨fun _ => hname, fun _ => ⟨_, rfl⟩⟩
  | stmt hname hloc => exact ⟨fun ⟨_, he⟩ => (nomatch he), fun hn => absurd hname hn⟩
  | run hname hrun hreports => exact ⟨fun ⟨_, he⟩ => (nomatch he), fun hn => absurd hname hn⟩

theorem unchanged (h : g.Serves name out) {e : Failure} (he : out.result = .error e) :
    e = .noSuchNode name ∧ out.graph = g := by
  cases h with
  | refused hname =>
    cases he
    exact ⟨rfl, rfl⟩
  | stmt hname hloc => cases he
  | run hname hrun hreports => cases he

theorem visiting (h : g.Serves name out) : out.graph.visiting = g.visiting := by
  cases h with
  | refused hname => rfl
  | stmt hname hloc => rfl
  | run hname hrun hreports => exact hreports.visiting

/-- The log of a demand has each loop head once at most, and the counter of widenings grows by as
many as there are. -/
theorem computations (h : g.Serves name out) :
    ((computations out.events).filter g.skeleton.heads.contains).Nodup ∧
      out.graph.stats.widens = g.stats.widens +
        ((Demanded.computations out.events).filter g.skeleton.heads.contains).length := by
  cases h with
  | refused hname => exact ⟨List.Pairwise.nil, rfl⟩
  | stmt hname hloc => exact ⟨List.Pairwise.nil, rfl⟩
  | run hname hrun hreports =>
    have hlog : Demanded.computations _ = _ := hreports.computations
    rw [hlog]
    exact ⟨hrun.once, hreports.widens⟩

/-- A loop head that is demanded and not stable is computed. -/
theorem mem_computations (hg : g.Coherent) {loc : Loc} (h : g.Serves (.state loc) out)
    (hloc : .state loc ∈ g.skeleton.graph.nodes) (hstable : g.isStable (.state loc) = false) :
    loc ∈ Demanded.computations out.events := by
  cases h with
  | refused hname => exact absurd hloc hname
  | stmt hname hne => exact absurd rfl (hne loc)
  | run hname hrun hreports =>
    have hlog : Demanded.computations _ = _ := hreports.computations
    rw [hlog]
    exact List.mem_append_right _
      (hrun.mem_log (hg.notMem_visiting loc) (hg.not_usable hstable))

end Serves

/-- The recursion of a demand terminates, whatever the allowance above a bound.  A demand fails
exactly on names that are no nodes, and then the graph stays as it is; no statement node is without
its statement.  Otherwise no loop head is being computed afterwards, each was computed and widened
at most once, and one that was demanded and not stable exactly once. -/
theorem get_terminates (hg : g.Reached) (name : NodeName) :
    (∀ loc, ∃ answer m, ∀ fuel, g.allowance ≤ fuel →
      g.skeleton.demand (g.pass + 1) fuel 0 loc g.memo = (.ok answer, m)) ∧
    ((∃ e, (g.get name).result = .error e) ↔ name ∉ g.skeleton.graph.nodes) ∧
    (∀ loc, .state loc ∈ g.skeleton.graph.nodes ↔ loc ∈ g.flow.graph.nodes) ∧
    (∀ src dst rank, .stmt src dst rank ∈ g.skeleton.graph.nodes ↔
      ∃ stmt, g.skeleton.stmts.get? (.stmt src dst rank) = some stmt) ∧
    (∀ e, (g.get name).result = .error e → e = .noSuchNode name ∧ (g.get name).graph = g) ∧
    (∀ loc, ∀ node ∈ g.skeleton.graph.predecessors (.state loc), ∃ src rank stmt,
      node = .stmt src loc rank ∧ g.skeleton.stmts.get? node = some stmt) ∧
    (g.get name).graph.visiting = ∅ ∧
    (g.get name).graph.stats.widens = g.stats.widens +
      ((computations (g.get name).events).filter g.flow.loopHeads.contains).length ∧
    (g.get name).graph.stats.widens ≤ g.stats.widens + g.flow.loopHeads.size ∧
    (∀ h ∈ g.flow.loopHeads.toList, (computations (g.get name).events).count h ≤ 1) ∧
    (∀ h ∈ g.flow.loopHeads.toList, name = .state h → g.isStable name = false →
      (computations (g.get name).events).count h = 1) := by
  have hc := hg.coherent
  have hs := g.serves_get name
  have hheads : g.skeleton.heads = g.flow.loopHeads := congrArg Skeleton.heads g.built
  obtain ⟨honce, hwidens⟩ := hs.computations
  rw [hheads] at honce hwidens
  have hcount : ∀ h ∈ g.flow.loopHeads.toList, (computations (g.get name).events).count h ≤ 1 := by
    intro h hh
    rw [← List.count_filter (p := g.flow.loopHeads.contains) (OrdSet.contains_iff.2 hh)]
    exact List.nodup_iff_count_le_one.1 honce h
  refine ⟨g.exists_demand, hs.fails_iff, fun loc => state_mem_nodes,
    fun src dst rank => stmt_mem_nodes, fun e he => hs.unchanged he, ?_, hs.visiting.trans hc.idle,
    hwidens, ?_, hcount, ?_⟩
  · intro loc node hnode
    rw [g.built] at hnode ⊢
    exact Skeleton.stmt_of_mem_predecessors hnode
  · rw [hwidens, OrdSet.size_eq_length]
    refine Nat.add_le_add_left (List.subperm_of_subset honce fun h hh => ?_).length_le _
    exact OrdSet.contains_iff.1 (List.mem_filter.1 hh).2
  · rintro h hh rfl hstable
    have hnode : .state h ∈ g.skeleton.graph.nodes := by
      refine state_mem_nodes.2 (Skeleton.mem_nodes_of_mem_heads ?_)
      exact hh
    have hmem := hs.mem_computations hc hnode hstable
    exact Nat.le_antisymm (hcount h hh) (List.count_pos_iff.2 hmem)

/-- On a fresh graph a demand for the head of a loop computes it once, although the loop leads back
to it. -/
theorem get_terminates_safeLoop :
    Loc.id 1 ∈ (ofFlow Demo.safeLoop.flow).flow.loopHeads.toList ∧
      ((ofFlow Demo.safeLoop.flow).get (.state (.id 1))).graph.visiting = ∅ ∧
      (computations ((ofFlow Demo.safeLoop.flow).get (.state (.id 1))).events).count (.id 1) = 1 :=
  have hhead : Loc.id 1 ∈ (ofFlow Demo.safeLoop.flow).flow.loopHeads.toList := by decide +kernel
  have hget := get_terminates (.ofFlow Demo.safeLoop.flow) (.state (.id 1))
  have hidle := hget.2.2.2.2.2.2.1
  have honce := hget.2.2.2.2.2.2.2.2.2.2
  ⟨hhead, hidle, honce _ hhead rfl rfl⟩

end Demanded.DemandGraph
