import Demanded.Proofs.Runs

/-!
# Demands come to rest

A location that is no loop head is not marked while it is being computed, so a demand may meet it
again below itself.  But every cycle has a back edge, and it leads to a loop head, which is marked.
Number the locations so that every other edge ascends (`Skeleton.exists_rank`).  Then a nested
demand has a smaller number, or one more loop head is being computed, and an allowance that exceeds
all nestings is never used up (`exists_demand`).  More of it gives the same answer (`demand_mono`).

So a demand for a node of a demanded graph always answers (`DemandGraph.serves_get`).
-/

namespace Demanded

/-! ## The allowance suffices -/

section Allowance

variable {sk : Skeleton} {pass : Nat} {ask : Ask}

/-- The loop heads that are not being computed. -/
def idleHeads (sk : Skeleton) (V : OrdSet Loc) : List Loc :=
  sk.heads.toList.filter fun h => !V.contains h

theorem length_idleHeads_add {V : OrdSet Loc} {loc : Loc} (hhead : loc ∈ sk.heads.toList)
    (hvis : loc ∉ V.toList) :
    (idleHeads sk (V.add loc)).length + 1 ≤ (idleHeads sk V).length :=
  OrdSet.length_filter_add_lt hhead hvis

/-- A demand at a location is answered. -/
def Ask.Answers (ask : Ask) (loc : Loc) (m : Memo) : Prop := ∃ a m', ask loc m = (.ok a, m')

theorem exists_joinInputs (hask : ask.Sound sk pass) {names : List NodeName} {V : OrdSet Loc}
    (hstmts : ∀ name ∈ names, ∃ input, sk.input? name = some input)
    (h : ∀ input ∈ names.filterMap sk.input?, ∀ m : Memo, m.visiting = V → ask.Answers input.1 m)
    (acc : Answer) (m : Memo) (hm : m.visiting = V) :
    ∃ a m', sk.joinInputs ask names acc m = (.ok a, m') ∧ m'.visiting = V := by
  induction names generalizing acc m with
  | nil => exact ⟨acc, m, rfl, hm⟩
  | cons name rest ih =>
    obtain ⟨⟨input, hinput⟩, hrest⟩ := List.forall_mem_cons.1 hstmts
    rw [List.filterMap_cons_some hinput, List.forall_mem_cons] at h
    cases name with
    | state loc => cases hinput
    | stmt src dst rank =>
      obtain ⟨stmt, hget, rfl⟩ := Option.map_eq_some_iff.1 hinput
      obtain ⟨pre, m₁, hpre⟩ := h.1 m hm
      obtain ⟨log, -, hrep⟩ := hask src m pre m₁ hpre
      have hvis : (m₁.warn (pre.state.interpretWarnings stmt)).visiting = V :=
        ((Memo.reports_warn sk.heads m₁ _).visiting.trans hrep.visiting).trans hm
      simp only [Skeleton.joinInputs, hpre, hget]
      exact ih hrest h.2 _ _ hvis

theorem exists_computeHead (hsk : sk.Regular) (hask : ask.Sound sk pass) {loc : Loc} {m : Memo}
    (h : ∀ (x : Loc) (m' : Memo), m'.visiting = m.visiting.add loc → ask.Answers x m') :
    ∃ a m', sk.computeHead pass ask loc m = (.ok a, m') := by
  obtain ⟨entering, m₁, henter, hm₁⟩ := exists_joinInputs hask hsk.stmts
    (fun input _ => h input.1) (sk.start loc) (m.enter loc) rfl
  obtain ⟨looping, m₂, hloop, -⟩ := exists_joinInputs hask hsk.stmts
    (fun input _ => h input.1) .bottom
    (m₁.store loc ⟨(m.value? loc).getD entering.state, OrdSet.singleton loc, pass⟩) hm₁
  rw [Skeleton.computeHead, Skeleton.computeEntering_eq, Skeleton.forwardNodes, henter]
  dsimp only
  rw [Skeleton.backNodes, hloop]
  exact ⟨_, _, rfl⟩

/-- A demand with an allowance for all loop heads that are not being computed and all locations
below comes to rest. -/
theorem exists_demand (hsk : sk.Regular) {rank : Loc → Nat} {n : Nat} (hle : ∀ x, rank x ≤ n)
    (hrank : ∀ loc, ∀ input ∈ sk.forwardInputs loc, rank input.1 < rank loc)
    (pass fuel depth : Nat) (loc : Loc) (m : Memo)
    (h : (idleHeads sk m.visiting).length * (n + 1) + rank loc + 1 ≤ fuel) :
    (sk.demand pass fuel depth).Answers loc m := by
  induction fuel generalizing depth loc m with
  | zero => omega
  | succ fuel ih =>
    have hask := sound_demand hsk pass fuel (depth + 1)
    rw [Ask.Answers, Skeleton.demand]
    generalize hm₀ : m.note (.demandStarts depth loc) = m₀
    have hvis₀ : m₀.visiting = m.visiting := hm₀ ▸ rfl
    split
    · exact ⟨_, _, rfl⟩
    · rename_i hvis
      rw [OrdSet.contains_iff, hvis₀] at hvis
      split
      · exact ⟨_, _, rfl⟩
      · suffices hcomputed : ∃ a m',
            sk.compute pass (sk.demand pass fuel (depth + 1)) loc m₀ = (.ok a, m') by
          obtain ⟨a, m', hr⟩ := hcomputed
          rw [hr]
          exact ⟨_, _, rfl⟩
        rw [Skeleton.compute]
        split
        · -- one more loop head is being computed
          rename_i hhead
          rw [OrdSet.contains_iff] at hhead
          have hfewer := Nat.mul_le_mul_right (n + 1) (length_idleHeads_add hhead hvis)
          rw [Nat.add_mul] at hfewer
          refine exists_computeHead hsk hask fun x m' hm' => ih (depth + 1) x m' ?_
          have hx := hle x
          rw [hm', hvis₀]
          omega
        · -- the number of the location gets smaller
          rename_i hplain
          rw [OrdSet.contains_iff] at hplain
          rw [Skeleton.computePlain_eq hsk hplain]
          have hroom : ∀ input ∈ (sk.forwardNodes loc).filterMap sk.input?, ∀ m' : Memo,
              m'.visiting = m.visiting → (sk.demand pass fuel (depth + 1)).Answers input.1 m' := by
            intro input hmem m' hm'
            rw [Skeleton.filterMap_forwardNodes] at hmem
            refine ih (depth + 1) input.1 m' ?_
            have hlt := hrank loc input hmem
            rw [hm']
            omega
          obtain ⟨a, m', hr, -⟩ := exists_joinInputs hask hsk.stmts hroom (sk.start loc) m₀ hvis₀
          exact ⟨a, m', hr⟩

/-! ## A greater allowance changes nothing -/

/-- What the first way to demand answers, the second one does. -/
def Ask.Extends (ask ask' : Ask) : Prop :=
  ∀ loc m a m', ask loc m = (.ok a, m') → ask' loc m = (.ok a, m')

variable {ask' : Ask} {a : Answer} {m' : Memo}

theorem Ask.Extends.joinInputs (h : ask.Extends ask') {names : List NodeName} {acc : Answer}
    {m : Memo} (hr : sk.joinInputs ask names acc m = (.ok a, m')) :
    sk.joinInputs ask' names acc m = (.ok a, m') := by
  induction names generalizing acc m with
  | nil => exact hr
  | cons name rest ih =>
    cases name with
    | state loc => exact ih hr
    | stmt src dst rank =>
      rw [Skeleton.joinInputs] at hr ⊢
      rcases hpre : ask src m with ⟨result, m₁⟩
      cases result with
      | error e => simp [hpre] at hr
      | ok pre =>
        rw [hpre] at hr
        rw [h _ _ _ _ hpre]
        cases hget : sk.stmts.get? (.stmt src dst rank) with
        | none => simp [hget] at hr
        | some stmt =>
          simp only [hget] at hr ⊢
          exact ih hr

theorem Ask.Extends.computeHead (h : ask.Extends ask') {loc : Loc} {m : Memo}
    (hr : sk.computeHead pass ask loc m = (.ok a, m')) :
    sk.computeHead pass ask' loc m = (.ok a, m') := by
  rw [Skeleton.computeHead, Skeleton.computeEntering_eq] at hr ⊢
  rcases henter : sk.joinInputs ask (sk.forwardNodes loc) (sk.start loc) (m.enter loc) with
    ⟨first, m₁⟩
  cases first with
  | error e => simp [henter] at hr
  | ok entering =>
    simp only [henter] at hr
    simp only [h.joinInputs henter]
    rcases hloop : sk.joinInputs ask (sk.backNodes loc) .bottom
      (m₁.store loc ⟨(m.value? loc).getD entering.state, OrdSet.singleton loc, pass⟩) with
      ⟨second, m₂⟩
    cases second with
    | error e => simp [hloop] at hr
    | ok looping =>
      rw [hloop] at hr
      rw [h.joinInputs hloop]
      exact hr

theorem Ask.Extends.compute (h : ask.Extends ask') {loc : Loc} {m : Memo}
    (hr : sk.compute pass ask loc m = (.ok a, m')) :
    sk.compute pass ask' loc m = (.ok a, m') := by
  unfold Skeleton.compute at hr ⊢
  split
  · rename_i hhead
    rw [if_pos hhead] at hr
    exact h.computeHead hr
  · rename_i hhead
    rw [if_neg hhead] at hr
    unfold Skeleton.computePlain at hr ⊢
    split
    · rename_i hroot
      rwa [if_pos hroot] at hr
    · rename_i hroot
      rw [if_neg hroot] at hr
      exact h.joinInputs hr

theorem extends_demand_succ (sk : Skeleton) (pass fuel depth : Nat) :
    Ask.Extends (sk.demand pass fuel depth) (sk.demand pass (fuel + 1) depth) := by
  induction fuel generalizing depth with
  | zero => exact fun loc m a m' h => nomatch h
  | succ fuel ih =>
    intro loc m a m' h
    rw [Skeleton.demand] at h ⊢
    split
    · rename_i hvis
      rwa [if_pos hvis] at h
    · rename_i hvis
      rw [if_neg hvis] at h
      split
      · rename_i cell hcell
        rwa [hcell] at h
      · rename_i hnone
        rw [hnone] at h
        dsimp only at h
        split at h
        · cases h
        · rename_i hcomputed
          rw [(ih (depth + 1)).compute hcomputed]
          exact h

theorem demand_mono {fuel fuel' depth : Nat} (hle : fuel ≤ fuel') {loc : Loc} {m : Memo}
    (h : sk.demand pass fuel depth loc m = (.ok a, m')) :
    sk.demand pass fuel' depth loc m = (.ok a, m') := by
  induction hle with
  | refl => exact h
  | step _ ih => exact extends_demand_succ sk pass _ depth loc m a m' ih

end Allowance

/-! ## Demanded graphs -/

namespace Skeleton

/-- The locations can be numbered so that forward inputs come before. -/
theorem exists_rank (f : FlowGraph) :
    ∃ rank : Loc → Nat, (∀ x, rank x ≤ f.numLocs) ∧
      ∀ loc, ∀ input ∈ (ofFlow f).forwardInputs loc, rank input.1 < rank loc := by
  obtain ⟨rank, hle, hrank⟩ := Multigraph.exists_rank f.graph
  refine ⟨rank, hle, fun loc input h => ?_⟩
  obtain ⟨hmem, hback⟩ := List.mem_filter.1 h
  rw [Bool.not_eq_true', ← Bool.not_eq_true, isBack_iff] at hback
  exact (hrank _ _ (leads_of_mem_inputs hmem)).resolve_left hback

theorem mem_nodes_of_mem_heads {f : FlowGraph} {loc : Loc} (h : loc ∈ (ofFlow f).heads.toList) :
    loc ∈ f.graph.nodes := by
  obtain ⟨src, hback⟩ := mem_heads.1 h
  exact (Multigraph.leads_of_mem_backEdges hback).dst_mem

theorem length_heads_le (f : FlowGraph) : (ofFlow f).heads.toList.length ≤ f.numLocs :=
  (List.subperm_of_subset (OrdSet.nodup_toList _)
    fun _ h => mem_nodes_of_mem_heads h).length_le

end Skeleton

namespace DemandGraph

theorem regular (g : DemandGraph) : g.skeleton.Regular :=
  g.built ▸ Skeleton.regular_ofFlow g.flow

theorem leads_of_mem_inputs {g : DemandGraph} {loc : Loc} {input : Loc × Stmt}
    (h : input ∈ g.skeleton.inputs loc) : g.flow.graph.Leads input.1 loc := by
  rw [g.built] at h
  exact Skeleton.leads_of_mem_inputs h

/-- The allowance of a graph suffices, and any greater one gives the same answer. -/
theorem exists_demand (g : DemandGraph) (loc : Loc) :
    ∃ a m, ∀ fuel, g.allowance ≤ fuel →
      g.skeleton.demand (g.pass + 1) fuel 0 loc g.memo = (.ok a, m) := by
  obtain ⟨rank, hle, hrank⟩ := Skeleton.exists_rank g.flow
  have hsize := Skeleton.length_heads_le g.flow
  rw [← g.built] at hrank hsize
  have hidle : (idleHeads g.skeleton g.memo.visiting).length ≤ g.flow.numLocs :=
    Nat.le_trans (List.length_filter_le _ _) hsize
  have hroom : (idleHeads g.skeleton g.memo.visiting).length * (g.flow.numLocs + 1) + rank loc +
      1 ≤ g.allowance := by
    have hloc := hle loc
    have hmul := Nat.mul_le_mul_right (g.flow.numLocs + 1) hidle
    rw [allowance, Nat.add_mul]
    omega
  obtain ⟨a, m, hr⟩ := Demanded.exists_demand g.regular hle hrank (g.pass + 1) _ 0 loc g.memo hroom
  exact ⟨a, m, fun fuel hfuel => demand_mono hfuel hr⟩

/-- A demand for a location is a run. -/
theorem getState_eq (g : DemandGraph) (loc : Loc) :
    ∃ (a : Answer) (m : Memo) (log : List Loc),
      Run g.skeleton (g.pass + 1) g.visiting (.demand loc) g.cells a m.cells log ∧
      g.memo.Reports g.skeleton.heads m log ∧
      g.getState loc = ⟨.ok a.state, g.resume m, m.events⟩ := by
  obtain ⟨a, m, hr⟩ := g.exists_demand loc
  have hdemand := hr g.allowance (Nat.le_refl _)
  obtain ⟨log, hrun, hreports⟩ := sound_demand g.regular _ _ _ loc g.memo a m hdemand
  exact ⟨a, m, log, hrun, hreports, by rw [getState, hdemand]; rfl⟩

/-- What a demand can be: a refusal, the statement of a node, or a run. -/
inductive Serves (g : DemandGraph) : NodeName → Outcome Resolved → Prop
  | refused {name : NodeName} (hname : name ∉ g.skeleton.graph.nodes) :
      Serves g name ⟨.error (.noSuchNode name), g, #[]⟩
  | stmt {name : NodeName} {stmt : Stmt} (hname : name ∈ g.skeleton.graph.nodes)
      (hloc : ∀ loc, name ≠ .state loc) : Serves g name ⟨.ok (.stmt stmt), g, #[]⟩
  | run {loc : Loc} {a : Answer} {m : Memo} {log : List Loc}
      (hname : .state loc ∈ g.skeleton.graph.nodes)
      (hrun : Run g.skeleton (g.pass + 1) g.visiting (.demand loc) g.cells a m.cells log)
      (hreports : g.memo.Reports g.skeleton.heads m log) :
      Serves g (.state loc) ⟨.ok (.state a.state), g.resume m, m.events⟩

theorem state_mem_nodes {g : DemandGraph} {loc : Loc} :
    .state loc ∈ g.skeleton.graph.nodes ↔ loc ∈ g.flow.graph.nodes := by
  rw [g.built]
  exact Skeleton.state_mem_nodes

theorem stmt_mem_nodes {g : DemandGraph} {src dst : Loc} {rank : Nat} :
    .stmt src dst rank ∈ g.skeleton.graph.nodes ↔
      ∃ stmt, g.skeleton.stmts.get? (.stmt src dst rank) = some stmt := by
  rw [g.built]
  exact Skeleton.stmt_mem_nodes

theorem serves_get (g : DemandGraph) (name : NodeName) : g.Serves name (g.get name) := by
  cases name with
  | state loc =>
    rw [get]
    split
    · rename_i hloc
      obtain ⟨a, m, log, hrun, hreports, heq⟩ := g.getState_eq loc
      rw [heq]
      exact .run (state_mem_nodes.2 (FlowGraph.contains_iff.1 hloc)) hrun hreports
    · rename_i hloc
      exact .refused fun h => hloc (FlowGraph.contains_iff.2 (state_mem_nodes.1 h))
  | stmt src dst rank =>
    rw [get]
    split
    · rename_i stmt hstmt
      exact .stmt (stmt_mem_nodes.2 ⟨stmt, hstmt⟩) fun _ he => nomatch he
    · rename_i hnone
      refine .refused fun h => ?_
      obtain ⟨stmt, hstmt⟩ := stmt_mem_nodes.1 h
      rw [hnone] at hstmt
      cases hstmt

theorem Serves.flow {g : DemandGraph} {name : NodeName} {out : Outcome Resolved}
    (h : g.Serves name out) : out.graph.flow = g.flow := by
  cases h with
  | refused hname => rfl
  | stmt hname hloc => rfl
  | run hname hrun hreports => rfl

end DemandGraph

end Demanded
