import Demanded.DemandGraph.Basic
import Demanded.Proofs.DepthFirst
import Demanded.Proofs.Inputs

/-!
# Runs of demands

`Run` says what a demand does to the cells, apart from its allowance, its counters and its log.  It
also lists the locations whose states the demand computes, in the order in which this ends.

* `sound_demand`: a demand that comes to rest is a run, and its counters and its log tell of the
  same computations.
* `Run.frame`: a run changes neither a cell that could be used when it began nor the cell of a loop
  head that is being computed.
* `Run.answered`: the answer of a run can be read off the cells at its end.
* `Run.once`: a run computes no loop head twice, and none that is being computed or has a cell that
  can be used.
* `Run.tracked`: the loop heads on which a state is said to depend lead to its location, and they
  were computed in the same pass.
-/

namespace Demanded

/-! ## Cells -/

/-- The states kept, by location. -/
abbrev Cells := OrdMap Loc Cell

namespace Cells

/-- The state kept for a location. -/
def value? (c : Cells) (loc : Loc) : Option State := (c.get? loc).map Cell.value

/-- The state kept for a location, unreachable if there is none. -/
def iterate (c : Cells) (loc : Loc) : State := (c.value? loc).getD .bottom

/-- The cell of a location that answers its demands in a pass. -/
def Usable (c : Cells) (pass : Nat) (loc : Loc) (cell : Cell) : Prop :=
  c.get? loc = some cell ∧ (cell.isFinal = true ∨ cell.pass = pass)

/-- The location has a cell of the pass. -/
def Fresh (c : Cells) (pass : Nat) (loc : Loc) : Prop :=
  ∃ cell, c.get? loc = some cell ∧ cell.pass = pass

theorem Fresh.usable {c : Cells} {pass : Nat} {loc : Loc} (h : c.Fresh pass loc) :
    ∃ cell, c.Usable pass loc cell := by
  obtain ⟨cell, hget, hpass⟩ := h
  exact ⟨cell, hget, .inr hpass⟩

theorem fresh_insert {c : Cells} {pass : Nat} {loc x : Loc} {cell : Cell} (hp : cell.pass = pass)
    (h : c.Fresh pass x ∨ x = loc) : Fresh (c.insert loc cell) pass x := by
  by_cases hx : x = loc
  · subst hx
    exact ⟨cell, OrdMap.get?_insert_self _ _ _, hp⟩
  · obtain ⟨old, hget, hold⟩ := h.resolve_right hx
    exact ⟨old, by rw [OrdMap.get?_insert_of_ne _ _ hx, hget], hold⟩

theorem usable_insert_of_ne {c : Cells} {pass : Nat} {loc x : Loc} {cell new : Cell}
    (hx : x ≠ loc) : Usable (c.insert loc new) pass x cell ↔ c.Usable pass x cell := by
  rw [Usable, Usable, OrdMap.get?_insert_of_ne _ _ hx]

theorem iterate_eq_of_get? {c c' : Cells} {loc : Loc} (h : c.get? loc = c'.get? loc) :
    c.iterate loc = c'.iterate loc := by
  rw [iterate, iterate, value?, value?, h]

theorem iterate_of_get? {c : Cells} {loc : Loc} {cell : Cell} (h : c.get? loc = some cell) :
    c.iterate loc = cell.value := by
  rw [iterate, value?, h]
  rfl

end Cells

theorem Memo.usable?_eq_some_iff {m : Memo} {pass : Nat} {loc : Loc} {cell : Cell} :
    m.usable? pass loc = some cell ↔ Cells.Usable m.cells pass loc cell := by
  rw [usable?, Option.filter_eq_some_iff]
  simp [Cells.Usable]

theorem Memo.usable?_eq_none_iff {m : Memo} {pass : Nat} {loc : Loc} :
    m.usable? pass loc = none ↔ ∀ cell, ¬Cells.Usable m.cells pass loc cell := by
  rw [Option.eq_none_iff_forall_ne_some]
  exact forall_congr' fun cell => not_congr usable?_eq_some_iff

/-! ## Runs -/

/-- What is to be done: a location is demanded, or inputs are joined to what was joined before. -/
inductive Task where
  | demand (loc : Loc)
  | join (inputs : List (Loc × Stmt)) (acc : Answer)

/-- From what the inputs of a location are joined: execution may start at a root. -/
def Skeleton.start (sk : Skeleton) (loc : Loc) : Answer :=
  if sk.isRoot loc then .top else .bottom

/-- With the heads `V` being computed, a task takes cells to an answer and to other cells, and
computes the states of the listed locations. -/
inductive Run (sk : Skeleton) (pass : Nat) :
    OrdSet Loc → Task → Cells → Answer → Cells → List Loc → Prop
  | iterate {V : OrdSet Loc} {loc : Loc} {c : Cells} (hvis : loc ∈ V.toList) :
      Run sk pass V (.demand loc) c ⟨c.iterate loc, OrdSet.singleton loc⟩ c []
  | kept {V : OrdSet Loc} {loc : Loc} {c : Cells} {cell : Cell} (hvis : loc ∉ V.toList)
      (hcell : c.Usable pass loc cell) :
      Run sk pass V (.demand loc) c ⟨cell.value, cell.pending⟩ c []
  | plain {V : OrdSet Loc} {loc : Loc} {c c' : Cells} {a : Answer} {log : List Loc}
      (hvis : loc ∉ V.toList) (hnone : ∀ cell, ¬c.Usable pass loc cell)
      (hplain : loc ∉ sk.heads.toList)
      (henter : Run sk pass V (.join (sk.forwardInputs loc) (sk.start loc)) c a c' log) :
      Run sk pass V (.demand loc) c a (c'.insert loc ⟨a.state, a.pending, pass⟩) (log ++ [loc])
  | head {V : OrdSet Loc} {loc : Loc} {c c₁ c₂ : Cells} {entering looping a : Answer}
      {prev : State} {log₁ log₂ : List Loc}
      (hvis : loc ∉ V.toList) (hnone : ∀ cell, ¬c.Usable pass loc cell)
      (hhead : loc ∈ sk.heads.toList)
      (henter : Run sk pass (V.add loc) (.join (sk.forwardInputs loc) (sk.start loc)) c entering c₁
        log₁)
      (hprev : prev = (c.value? loc).getD entering.state)
      (hloop : Run sk pass (V.add loc) (.join (sk.backInputs loc) .bottom)
        (c₁.insert loc ⟨prev, OrdSet.singleton loc, pass⟩) looping c₂ log₂)
      (ha : a = Skeleton.headAnswer loc (c.value? loc) prev
        (prev.widen (entering.state.join looping.state)) entering.pending looping.pending) :
      Run sk pass V (.demand loc) c a (c₂.insert loc ⟨a.state, a.pending, pass⟩)
        (log₁ ++ log₂ ++ [loc])
  | done {V : OrdSet Loc} {acc : Answer} {c : Cells} : Run sk pass V (.join [] acc) c acc c []
  | step {V : OrdSet Loc} {src : Loc} {stmt : Stmt} {rest : List (Loc × Stmt)}
      {acc pre a : Answer} {c c₁ c₂ : Cells} {log₁ log₂ : List Loc}
      (hask : Run sk pass V (.demand src) c pre c₁ log₁)
      (hrest : Run sk pass V (.join rest (acc.absorb pre stmt)) c₁ a c₂ log₂) :
      Run sk pass V (.join ((src, stmt) :: rest) acc) c a c₂ (log₁ ++ log₂)

/-! ## The log -/

/-- The locations whose states were computed, read off a log that has the last event first: a
computed state is reported right before the end of its demand. -/
def computedBefore : List Event → List Loc
  | .demandEnds _ loc :: .stateComputed _ _ _ :: rest => computedBefore rest ++ [loc]
  | _ :: rest => computedBefore rest
  | [] => []

/-- The locations whose states were computed according to a log, in the order in which this
ended. -/
def computations (events : Array Event) : List Loc := computedBefore events.toList.reverse

theorem computations_push {events : Array Event} {e : Event}
    (h : ∀ depth loc, e ≠ .demandEnds depth loc) :
    computations (events.push e) = computations events := by
  rw [computations, computations, Array.toList_push, List.reverse_append]
  cases e with
  | demandEnds depth loc => exact absurd rfl (h depth loc)
  | _ => rfl

theorem computations_push_iterateUsed (events : Array Event) (depth : Nat) (loc : Loc) :
    computations ((events.push (.iterateUsed depth)).push (.demandEnds depth loc)) =
      computations events := by
  simp [computations, computedBefore]

theorem computations_push_cellUsed (events : Array Event) (depth : Nat) (loc : Loc) :
    computations ((events.push (.cellUsed depth)).push (.demandEnds depth loc)) =
      computations events := by
  simp [computations, computedBefore]

theorem computations_push_stateComputed (events : Array Event) (depth : Nat) (state : State)
    (pending : List Loc) (loc : Loc) :
    computations ((events.push (.stateComputed depth state pending)).push
      (.demandEnds depth loc)) = computations events ++ [loc] := by
  simp [computations, computedBefore]

namespace Memo

@[simp]
theorem cells_warn (m : Memo) (warnings : List Interval.ZeroDivisor) :
    (m.warn warnings).cells = m.cells := by
  induction warnings generalizing m with
  | nil => rfl
  | cons w rest ih => exact ih (m.note (.zeroDivisor w))

/-- What the counters, the log and the heads being computed tell of a run that computes the listed
locations. -/
structure Reports (heads : OrdSet Loc) (m m' : Memo) (log : List Loc) : Prop where
  visiting : m'.visiting = m.visiting
  computations : computations m'.events = computations m.events ++ log
  computed : m'.stats.computed = m.stats.computed + log.length
  widens : m'.stats.widens = m.stats.widens + (log.filter heads.contains).length

variable {heads : OrdSet Loc} {m m' m₁ m₂ m₃ : Memo} {log log₁ log₂ : List Loc}

/-- Nothing was computed. -/
theorem Reports.nil (hvis : m'.visiting = m.visiting)
    (hev : Demanded.computations m'.events = Demanded.computations m.events)
    (hcomputed : m'.stats.computed = m.stats.computed)
    (hwidens : m'.stats.widens = m.stats.widens) : m.Reports heads m' [] where
  visiting := hvis
  computations := by rw [hev, List.append_nil]
  computed := hcomputed
  widens := hwidens

theorem Reports.trans (h : m₁.Reports heads m₂ log₁) (h' : m₂.Reports heads m₃ log₂) :
    m₁.Reports heads m₃ (log₁ ++ log₂) where
  visiting := h'.visiting.trans h.visiting
  computations := by rw [h'.computations, h.computations, List.append_assoc]
  computed := by rw [h'.computed, h.computed, List.length_append, Nat.add_assoc]
  widens := by rw [h'.widens, h.widens, List.filter_append, List.length_append, Nat.add_assoc]

theorem Reports.note (h : m.Reports heads m' log) {e : Event}
    (he : ∀ depth loc, e ≠ .demandEnds depth loc) : m.Reports heads (m'.note e) log :=
  { h with computations := (computations_push he).trans h.computations }

theorem Reports.refl (heads : OrdSet Loc) (m : Memo) : m.Reports heads m [] :=
  .nil rfl rfl rfl rfl

theorem reports_warn (heads : OrdSet Loc) (m : Memo) (warnings : List Interval.ZeroDivisor) :
    m.Reports heads (m.warn warnings) [] := by
  induction warnings generalizing m with
  | nil => exact .refl heads m
  | cons w rest ih =>
    have hw : m.Reports heads (m.note (.zeroDivisor w)) [] :=
      (Reports.refl heads m).note (by simp)
    exact hw.trans (ih _)

end Memo

/-! ## Demands are runs -/

/-- The task, from one memo to another, is a run of which counters and log tell. -/
def Realizes (sk : Skeleton) (pass : Nat) (task : Task) (m : Memo) (a : Answer) (m' : Memo) :
    Prop :=
  ∃ log, Run sk pass m.visiting task m.cells a m'.cells log ∧ m.Reports sk.heads m' log

/-- Every answer comes from a run. -/
def Ask.Sound (sk : Skeleton) (pass : Nat) (ask : Ask) : Prop :=
  ∀ loc m a m', ask loc m = (.ok a, m') → Realizes sk pass (.demand loc) m a m'

section Realization

variable {sk : Skeleton} {pass : Nat} {ask : Ask} {a : Answer} {m m' : Memo}

/-- What joins the statements of nodes goes through the inputs that they stand for. -/
theorem realizes_joinInputs (hask : ask.Sound sk pass) {names : List NodeName} {acc : Answer}
    (h : sk.joinInputs ask names acc m = (.ok a, m')) :
    Realizes sk pass (.join (names.filterMap sk.input?) acc) m a m' := by
  induction names generalizing acc m with
  | nil =>
    cases h
    exact ⟨[], .done, .refl _ _⟩
  | cons name rest ih =>
    cases name with
    | state loc => exact ih h
    | stmt src dst rank =>
      rw [Skeleton.joinInputs] at h
      rcases hpre : ask src m with ⟨result, m₁⟩
      rw [hpre] at h
      cases result with
      | error e => cases h
      | ok pre =>
        cases hget : sk.stmts.get? (.stmt src dst rank) with
        | none => simp [hget] at h
        | some stmt =>
          have hinput : sk.input? (.stmt src dst rank) = some (src, stmt) := by
            rw [Skeleton.input?, hget]
            rfl
          simp only [hget] at h
          obtain ⟨log₁, hrun₁, hrep₁⟩ := hask src m pre m₁ hpre
          obtain ⟨log₂, hrun₂, hrep₂⟩ := ih h
          have hwarn := hrep₁.trans
            (Memo.reports_warn sk.heads m₁ (pre.state.interpretWarnings stmt))
          rw [List.append_nil] at hwarn
          rw [hwarn.visiting, Memo.cells_warn] at hrun₂
          rw [List.filterMap_cons_some hinput]
          exact ⟨log₁ ++ log₂, .step hrun₁ hrun₂, hwarn.trans hrep₂⟩

theorem Skeleton.mem_of_mem_forwardInputs {loc : Loc} {input : Loc × Stmt}
    (h : input ∈ sk.forwardInputs loc) : input ∈ sk.inputs loc :=
  List.mem_of_mem_filter h

theorem Skeleton.mem_of_mem_backInputs {loc : Loc} {input : Loc × Stmt}
    (h : input ∈ sk.backInputs loc) : input ∈ sk.inputs loc :=
  List.mem_of_mem_filter h

theorem Skeleton.forwardInputs_of_isRoot {loc : Loc} (h : sk.isRoot loc = true) :
    sk.forwardInputs loc = [] := by
  rw [← filterMap_forwardNodes, List.isEmpty_iff.1 h]
  rfl

/-- Each statement node has its statement, only loop heads have inputs along back edges, and no
location is its own forward input. -/
structure Skeleton.Regular (sk : Skeleton) : Prop where
  complete : ∀ loc, ∀ name ∈ sk.graph.predecessors (.state loc),
    ∃ input, sk.input? name = some input
  forward : ∀ loc, loc ∉ sk.heads.toList → ∀ src, sk.isBack src loc = false
  apart : ∀ loc, ∀ input ∈ sk.forwardInputs loc, input.1 ≠ loc

theorem Skeleton.Regular.plain (hsk : sk.Regular) (loc : Loc) (h : loc ∉ sk.heads.toList) :
    sk.forwardInputs loc = sk.inputs loc := by
  rw [forwardInputs, List.filter_eq_self]
  intro input _
  rw [hsk.forward loc h, Bool.not_false]

theorem Skeleton.Regular.stmts (hsk : sk.Regular) {loc : Loc} {keep : Loc → Bool} :
    ∀ name ∈ sk.inputNodes loc keep, ∃ input, sk.input? name = some input :=
  fun name h => hsk.complete loc name (List.mem_of_mem_filter h)

theorem Skeleton.regular_ofFlow (f : FlowGraph) : (ofFlow f).Regular where
  complete loc name h := by
    obtain ⟨src, rank, stmt, rfl, hget⟩ := stmt_of_mem_predecessors h
    exact ⟨(src, stmt), by rw [input?, hget]; rfl⟩
  forward loc h src := by
    rw [← Bool.not_eq_true, isBack_iff]
    exact fun hback => h (mem_heads.2 ⟨src, hback⟩)
  apart loc input h := by
    obtain ⟨hmem, hback⟩ := List.mem_filter.1 h
    rintro rfl
    obtain ⟨rank, -, hrank⟩ := Multigraph.exists_rank f.graph
    rcases hrank _ _ (leads_of_mem_inputs hmem) with hb | hlt
    · rw [isBack_iff.2 hb] at hback
      cases hback
    · omega

theorem Skeleton.computeEntering_eq (loc : Loc) :
    sk.computeEntering ask loc m =
      sk.joinInputs ask (sk.forwardNodes loc) (sk.start loc) m := by
  unfold computeEntering start
  split
  · rename_i hroot
    rw [List.isEmpty_iff.1 hroot]
    rfl
  · rfl

theorem Skeleton.computePlain_eq (hsk : sk.Regular) {loc : Loc} (h : loc ∉ sk.heads.toList) :
    sk.computePlain ask loc m = sk.joinInputs ask (sk.forwardNodes loc) (sk.start loc) m := by
  have hall : (sk.inputNodes loc fun _ => true) = sk.forwardNodes loc := by
    simp only [forwardNodes, hsk.forward loc h, Bool.not_false]
  rw [← computeEntering_eq, computePlain, computeEntering, hall]

/-- One widening of a loop head: the run of what enters, the run of what loops back, and the
answer. -/
theorem realizes_computeHead (hask : ask.Sound sk pass) {loc : Loc}
    (hvis : loc ∉ m.visiting.toList) (h : sk.computeHead pass ask loc m = (.ok a, m')) :
    ∃ (entering looping : Answer) (c₁ : Cells) (m₂ : Memo) (log₁ log₂ : List Loc) (prev : State),
      prev = (Cells.value? m.cells loc).getD entering.state ∧
      Run sk pass (m.visiting.add loc) (.join (sk.forwardInputs loc) (sk.start loc)) m.cells
        entering c₁ log₁ ∧
      Run sk pass (m.visiting.add loc) (.join (sk.backInputs loc) .bottom)
        (c₁.insert loc ⟨prev, OrdSet.singleton loc, pass⟩) looping m₂.cells log₂ ∧
      a = Skeleton.headAnswer loc (Cells.value? m.cells loc) prev
        (prev.widen (entering.state.join looping.state)) entering.pending looping.pending ∧
      m.Reports sk.heads m₂ (log₁ ++ log₂) ∧ m' = m₂.countWiden := by
  rw [Skeleton.computeHead, Skeleton.computeEntering_eq] at h
  rcases henter : sk.joinInputs ask (sk.forwardNodes loc) (sk.start loc) (m.enter loc) with
    ⟨first, m₁⟩
  cases first with
  | error e => simp [henter] at h
  | ok entering =>
    simp only [henter] at h
    obtain ⟨log₁, hrun₁, hrep₁⟩ := realizes_joinInputs hask henter
    rw [Skeleton.filterMap_forwardNodes] at hrun₁
    generalize hprev : (m.value? loc).getD entering.state = prev at h
    rcases hloop : sk.joinInputs ask (sk.backNodes loc) .bottom
      (m₁.store loc ⟨prev, OrdSet.singleton loc, pass⟩) with ⟨second, m₂⟩
    cases second with
    | error e => simp [hloop] at h
    | ok looping =>
      simp only [hloop, Prod.mk.injEq, Except.ok.injEq] at h
      obtain ⟨rfl, rfl⟩ := h
      obtain ⟨log₂, hrun₂, hrep₂⟩ := realizes_joinInputs hask hloop
      rw [Skeleton.filterMap_backNodes] at hrun₂
      have hvis₁ : m₁.visiting = m.visiting.add loc := hrep₁.visiting
      have hrun₂ : Run sk pass m₁.visiting (.join (sk.backInputs loc) .bottom)
          (OrdMap.insert m₁.cells loc ⟨prev, OrdSet.singleton loc, pass⟩) looping m₂.cells log₂ :=
        hrun₂
      rw [hvis₁] at hrun₂
      refine ⟨entering, looping, m₁.cells, m₂.leave loc, log₁, log₂, prev, hprev.symm, hrun₁,
        hrun₂, rfl, ⟨?_, ?_, ?_, ?_⟩, rfl⟩
      · show OrdMap.erase m₂.visiting loc = m.visiting
        rw [hrep₂.visiting]
        exact (congrArg (OrdMap.erase · loc) hvis₁).trans (OrdSet.erase_add hvis)
      · show computations m₂.events = _
        rw [hrep₂.computations, ← List.append_assoc]
        exact congrArg (· ++ log₂) hrep₁.computations
      · show m₂.stats.computed = _
        rw [hrep₂.computed, List.length_append, ← Nat.add_assoc]
        exact congrArg (· + log₂.length) hrep₁.computed
      · show m₂.stats.widens = _
        rw [hrep₂.widens, List.filter_append, List.length_append, ← Nat.add_assoc]
        exact congrArg (· + (log₂.filter sk.heads.contains).length) hrep₁.widens

theorem Memo.Reports.conclude {log : List Loc} (h : m.Reports sk.heads m' log) {loc : Loc}
    (hloc : loc ∉ sk.heads.toList) (depth : Nat) :
    m.Reports sk.heads (m'.conclude pass depth loc a) (log ++ [loc]) where
  visiting := h.visiting
  computations := by
    rw [← List.append_assoc, ← h.computations]
    exact computations_push_stateComputed _ _ _ _ _
  computed := by
    rw [List.length_append, ← Nat.add_assoc, ← h.computed]
    rfl
  widens := by
    rw [List.filter_append, List.filter_cons_of_neg (by rwa [OrdSet.contains_iff]),
      List.filter_nil, List.append_nil]
    exact h.widens

theorem Memo.Reports.conclude_head {log : List Loc} (h : m.Reports sk.heads m' log) {loc : Loc}
    (hloc : loc ∈ sk.heads.toList) (depth : Nat) :
    m.Reports sk.heads (m'.countWiden.conclude pass depth loc a) (log ++ [loc]) where
  visiting := h.visiting
  computations := by
    rw [← List.append_assoc, ← h.computations]
    exact computations_push_stateComputed _ _ _ _ _
  computed := by
    rw [List.length_append, ← Nat.add_assoc, ← h.computed]
    rfl
  widens := by
    rw [List.filter_append, List.filter_cons_of_pos (OrdSet.contains_iff.2 hloc),
      List.filter_nil, List.length_append, ← Nat.add_assoc, ← h.widens]
    rfl

/-- A computation, together with its conclusion, is a run. -/
theorem realizes_compute (hsk : sk.Regular) (hask : ask.Sound sk pass) {loc : Loc}
    (hvis : loc ∉ m.visiting.toList) (hnone : ∀ cell, ¬Cells.Usable m.cells pass loc cell)
    (h : sk.compute pass ask loc m = (.ok a, m')) (depth : Nat) :
    Realizes sk pass (.demand loc) m a (m'.conclude pass depth loc a) := by
  rw [Skeleton.compute] at h
  split at h
  · rename_i hhead
    rw [OrdSet.contains_iff] at hhead
    obtain ⟨entering, looping, c₁, m₂, log₁, log₂, prev, hprev, hrun₁, hrun₂, ha, hrep, rfl⟩ :=
      realizes_computeHead hask hvis h
    exact ⟨log₁ ++ log₂ ++ [loc], .head hvis hnone hhead hrun₁ hprev hrun₂ ha,
      hrep.conclude_head hhead depth⟩
  · rename_i hplain
    rw [OrdSet.contains_iff] at hplain
    rw [Skeleton.computePlain_eq hsk hplain] at h
    obtain ⟨log, hrun, hrep⟩ := realizes_joinInputs hask h
    rw [Skeleton.filterMap_forwardNodes] at hrun
    exact ⟨log ++ [loc], .plain hvis hnone hplain hrun, hrep.conclude hplain depth⟩

/-- A demand that comes to rest is a run. -/
theorem sound_demand (hsk : sk.Regular) (pass fuel depth : Nat) :
    Ask.Sound sk pass (sk.demand pass fuel depth) := by
  induction fuel generalizing depth with
  | zero => exact fun loc m a m' h => nomatch h
  | succ fuel ih =>
    intro loc m a m' h
    -- only the log knows that the demand has started
    have hstart := (Memo.Reports.refl sk.heads m).note
      (e := .demandStarts depth loc) (by simp)
    have hrealizes : Realizes sk pass (.demand loc) (m.note (.demandStarts depth loc)) a m' := by
      rw [Skeleton.demand] at h
      generalize m.note (.demandStarts depth loc) = m₀ at h ⊢
      split at h
      · rename_i hvis
        cases h
        exact ⟨[], .iterate (OrdSet.contains_iff.1 hvis),
          .nil rfl (computations_push_iterateUsed _ _ _) rfl rfl⟩
      · rename_i hvis
        rw [OrdSet.contains_iff] at hvis
        split at h
        · rename_i cell hcell
          cases h
          exact ⟨[], .kept hvis (Memo.usable?_eq_some_iff.1 hcell),
            .nil rfl (computations_push_cellUsed _ _ _) rfl rfl⟩
        · rename_i hnone
          split at h
          · cases h
          · rename_i hcomputed
            cases h
            exact realizes_compute hsk (ih (depth + 1)) hvis (Memo.usable?_eq_none_iff.1 hnone)
              hcomputed depth
    obtain ⟨log, hrun, hrep⟩ := hrealizes
    exact ⟨log, hrun, hstart.trans hrep⟩

end Realization

/-! ## What a run leaves alone -/

/-- The cells of the heads being computed, and the cells that could be used, are as before. -/
structure Frame (pass : Nat) (V : OrdSet Loc) (c c' : Cells) : Prop where
  visiting : ∀ loc ∈ V.toList, c'.get? loc = c.get? loc
  usable : ∀ loc cell, c.Usable pass loc cell → c'.get? loc = some cell

namespace Frame

variable {pass : Nat} {V : OrdSet Loc} {c c₁ c₂ : Cells}

theorem refl (pass : Nat) (V : OrdSet Loc) (c : Cells) : Frame pass V c c :=
  ⟨fun _ _ => rfl, fun _ _ h => h.1⟩

theorem keeps (h : Frame pass V c c₁) {loc : Loc} {cell : Cell} (hu : c.Usable pass loc cell) :
    c₁.Usable pass loc cell :=
  ⟨h.usable loc cell hu, hu.2⟩

theorem fresh (h : Frame pass V c c₁) {loc : Loc} (hf : c.Fresh pass loc) :
    c₁.Fresh pass loc := by
  obtain ⟨cell, hget, hpass⟩ := hf
  exact ⟨cell, h.usable loc cell ⟨hget, .inr hpass⟩, hpass⟩

theorem trans (h : Frame pass V c c₁) (h' : Frame pass V c₁ c₂) : Frame pass V c c₂ where
  visiting loc hloc := (h'.visiting loc hloc).trans (h.visiting loc hloc)
  usable loc cell hu := h'.usable loc cell (h.keeps hu)

theorem of_add {loc : Loc} (h : Frame pass (V.add loc) c c₁) : Frame pass V c c₁ where
  visiting x hx := h.visiting x (OrdSet.mem_add.2 (.inr hx))
  usable := h.usable

theorem insert (h : Frame pass V c c₁) {loc : Loc} (hvis : loc ∉ V.toList)
    (hnone : ∀ cell, ¬c.Usable pass loc cell) (new : Cell) :
    Frame pass V c (c₁.insert loc new) where
  visiting x hx := by
    rw [OrdMap.get?_insert_of_ne _ _ fun he : x = loc => hvis (he ▸ hx)]
    exact h.visiting x hx
  usable x cell hu := by
    rw [OrdMap.get?_insert_of_ne _ _ fun he : x = loc => hnone cell (he ▸ hu)]
    exact h.usable x cell hu

end Frame

section Runs

variable {sk : Skeleton} {pass : Nat} {V : OrdSet Loc} {task : Task} {c c' : Cells} {a : Answer}
  {log : List Loc}

theorem Run.frame (h : Run sk pass V task c a c' log) : Frame pass V c c' := by
  induction h with
  | iterate hvis => exact .refl _ _ _
  | kept hvis hcell => exact .refl _ _ _
  | plain hvis hnone hplain henter ih => exact ih.insert hvis hnone _
  | head hvis hnone hhead henter hprev hloop ha ihe ihl =>
    exact ((ihe.of_add.insert hvis hnone _).trans ihl.of_add).insert hvis hnone _
  | done => exact .refl _ _ _
  | step hask hrest ih ih' => exact ih.trans ih'

/-- A cell is there from the beginning, or it is of the pass. -/
theorem Run.pass_cases (h : Run sk pass V task c a c' log) {x : Loc} {cell : Cell}
    (hget : c'.get? x = some cell) : c.get? x = some cell ∨ cell.pass = pass := by
  have hinsert : ∀ {c : Cells} {loc : Loc} {new : Cell}, new.pass = pass →
      (c.insert loc new).get? x = some cell → c.get? x = some cell ∨ cell.pass = pass := by
    intro c loc new hpass hget
    rw [OrdMap.get?_insert_eq] at hget
    split at hget
    · cases hget
      exact .inr hpass
    · exact .inl hget
  induction h with
  | iterate hvis => exact .inl hget
  | kept hvis hcell => exact .inl hget
  | plain hvis hnone hplain henter ih => exact (hinsert rfl hget).elim ih .inr
  | head hvis hnone hhead henter hprev hloop ha ihe ihl =>
    exact (hinsert rfl hget).elim (fun h₂ => (ihl h₂).elim
      (fun h₁ => (hinsert rfl h₁).elim ihe .inr) .inr) .inr
  | done => exact .inl hget
  | step hask hrest ih ih' => exact (ih' hget).elim ih .inr

/-! ## What a run answers -/

/-- What the cells say about a location. -/
def reply (V : OrdSet Loc) (c : Cells) (loc : Loc) : Answer :=
  if loc ∈ V.toList then ⟨c.iterate loc, OrdSet.singleton loc⟩
  else ((c.get? loc).map fun cell => ⟨cell.value, cell.pending⟩).getD .bottom

/-- What the cells say about inputs, joined. -/
def joined (V : OrdSet Loc) (c : Cells) (inputs : List (Loc × Stmt)) (acc : Answer) : Answer :=
  inputs.foldl (fun acc input => acc.absorb (reply V c input.1) input.2) acc

/-- A demand for the location is answered without a computation. -/
def Ready (pass : Nat) (V : OrdSet Loc) (c : Cells) (loc : Loc) : Prop :=
  loc ∈ V.toList ∨ ∃ cell, c.Usable pass loc cell

/-- The task can be answered from the cells, and this is the answer. -/
def Task.Answered (pass : Nat) (V : OrdSet Loc) (c : Cells) (a : Answer) : Task → Prop
  | .demand loc => Ready pass V c loc ∧ a = reply V c loc
  | .join inputs acc => (∀ input ∈ inputs, Ready pass V c input.1) ∧ a = joined V c inputs acc

theorem reply_of_mem {loc : Loc} (h : loc ∈ V.toList) :
    reply V c loc = ⟨c.iterate loc, OrdSet.singleton loc⟩ :=
  if_pos h

theorem reply_of_get? {loc : Loc} {cell : Cell} (h : loc ∉ V.toList)
    (hget : c.get? loc = some cell) : reply V c loc = ⟨cell.value, cell.pending⟩ := by
  rw [reply, if_neg h, hget]
  rfl

theorem state_reply (V : OrdSet Loc) (c : Cells) (loc : Loc) :
    (reply V c loc).state = c.iterate loc := by
  unfold reply
  split
  · rfl
  · rw [Cells.iterate, Cells.value?]
    cases c.get? loc <;> rfl

theorem Frame.ready (h : Frame pass V c c') {loc : Loc} (hr : Ready pass V c loc) :
    Ready pass V c' loc :=
  hr.imp id fun ⟨cell, hu⟩ => ⟨cell, h.keeps hu⟩

theorem Frame.reply_eq (h : Frame pass V c c') {loc : Loc} (hr : Ready pass V c loc) :
    reply V c' loc = reply V c loc := by
  have hget : c'.get? loc = c.get? loc := by
    rcases hr with hvis | ⟨cell, hu⟩
    · exact h.visiting loc hvis
    · rw [h.usable loc cell hu, hu.1]
  rw [reply, reply, hget, Cells.iterate_eq_of_get? hget]

private theorem answered_insert {loc : Loc} (h : loc ∉ V.toList) (c : Cells) (a : Answer) :
    (Task.demand loc).Answered pass V (c.insert loc ⟨a.state, a.pending, pass⟩) a :=
  have hget := OrdMap.get?_insert_self c loc (Cell.mk a.state a.pending pass)
  ⟨.inr ⟨_, hget, .inr rfl⟩, (reply_of_get? h hget).symm⟩

theorem Run.answered (h : Run sk pass V task c a c' log) : task.Answered pass V c' a := by
  induction h with
  | iterate hvis => exact ⟨.inl hvis, (reply_of_mem hvis).symm⟩
  | kept hvis hcell => exact ⟨.inr ⟨_, hcell⟩, (reply_of_get? hvis hcell.1).symm⟩
  | plain hvis hnone hplain henter ih => exact answered_insert hvis _ _
  | head hvis hnone hhead henter hprev hloop ha ihe ihl => exact answered_insert hvis _ _
  | done => exact ⟨fun input hmem => absurd hmem List.not_mem_nil, rfl⟩
  | step hask hrest ih ih' =>
    -- what the first demand answered is still what the cells say at the end
    refine ⟨List.forall_mem_cons.2 ⟨hrest.frame.ready ih.1, ih'.1⟩, ?_⟩
    rw [ih'.2, joined, joined, List.foldl_cons, hrest.frame.reply_eq ih.1, ← ih.2]

theorem mem_pending_joined {inputs : List (Loc × Stmt)} {acc : Answer} {x : Loc} :
    x ∈ (joined V c inputs acc).pending.toList ↔
      x ∈ acc.pending.toList ∨ ∃ input ∈ inputs, x ∈ (reply V c input.1).pending.toList := by
  induction inputs generalizing acc with
  | nil => simp [joined]
  | cons input rest ih =>
    rw [joined, List.foldl_cons]
    refine ih.trans ?_
    rw [Answer.absorb, OrdSet.mem_union]
    simp [or_assoc]

/-! ## How often a run computes a location -/

/-- What is computed was neither being computed nor known, and it is known afterwards. -/
theorem Run.of_mem_log (h : Run sk pass V task c a c' log) {x : Loc} (hx : x ∈ log) :
    x ∉ V.toList ∧ (∀ cell, ¬c.Usable pass x cell) ∧ c'.Fresh pass x := by
  induction h with
  | iterate hvis => cases hx
  | kept hvis hcell => cases hx
  | plain hvis hnone hplain henter ih =>
    rcases List.mem_append.1 hx with hx | hx
    · obtain ⟨hv, hn, hf⟩ := ih hx
      exact ⟨hv, hn, Cells.fresh_insert rfl (.inl hf)⟩
    · cases List.mem_singleton.1 hx
      exact ⟨hvis, hnone, Cells.fresh_insert rfl (.inr rfl)⟩
  | head hvis hnone hhead henter hprev hloop ha ihe ihl =>
    have hbefore := henter.frame.of_add.insert hvis hnone
    simp only [OrdSet.mem_add, not_or] at ihe ihl
    rcases List.mem_append.1 hx with hx | hx
    · rcases List.mem_append.1 hx with hx | hx
      · obtain ⟨⟨-, hv⟩, hn, hf⟩ := ihe hx
        exact ⟨hv, hn, Cells.fresh_insert rfl
          (.inl (hloop.frame.fresh (Cells.fresh_insert rfl (.inl hf))))⟩
      · obtain ⟨⟨-, hv⟩, hn, hf⟩ := ihl hx
        exact ⟨hv, fun cell hu => hn cell ((hbefore _).keeps hu),
          Cells.fresh_insert rfl (.inl hf)⟩
    · cases List.mem_singleton.1 hx
      exact ⟨hvis, hnone, Cells.fresh_insert rfl (.inr rfl)⟩
  | done => cases hx
  | step hask hrest ih ih' =>
    rcases List.mem_append.1 hx with hx | hx
    · obtain ⟨hv, hn, hf⟩ := ih hx
      exact ⟨hv, hn, hrest.frame.fresh hf⟩
    · obtain ⟨hv, hn, hf⟩ := ih' hx
      exact ⟨hv, fun cell hu => hn cell (hask.frame.keeps hu), hf⟩

/-- A location that is neither being computed nor known is computed. -/
theorem Run.mem_log {loc : Loc} (h : Run sk pass V (.demand loc) c a c' log)
    (hvis : loc ∉ V.toList) (hnone : ∀ cell, ¬c.Usable pass loc cell) : loc ∈ log := by
  cases h with
  | iterate hmem => exact absurd hmem hvis
  | kept _ hcell => exact absurd hcell (hnone _)
  | plain | head => exact List.mem_append_right _ (List.mem_singleton.2 rfl)

/-- Two runs, one after the other, compute no location in common: it would be known in between. -/
private theorem Run.disjoint_log {V' : OrdSet Loc} {task' : Task} {c₁ c₂ : Cells} {a' : Answer}
    {log' : List Loc} (h : Run sk pass V task c a c' log)
    (h' : Run sk pass V' task' c₁ a' c₂ log')
    (hkeep : ∀ x ∈ log, c'.Fresh pass x → c₁.Fresh pass x) : ∀ x ∈ log, x ∉ log' := by
  intro x hx hx'
  obtain ⟨cell, hu⟩ := (hkeep x hx (h.of_mem_log hx).2.2).usable
  exact (h'.of_mem_log hx').2.1 cell hu

/-- No loop head is computed twice.  Other locations can be: they are not marked while they are
being computed. -/
theorem Run.once (h : Run sk pass V task c a c' log) :
    (log.filter sk.heads.contains).Nodup := by
  induction h with
  | iterate hvis => exact List.Pairwise.nil
  | kept hvis hcell => exact List.Pairwise.nil
  | plain hvis hnone hplain henter ih =>
    rw [List.filter_append, List.filter_cons_of_neg (by rwa [OrdSet.contains_iff])]
    simpa using ih
  | @head V loc c c₁ c₂ entering looping a prev log₁ log₂ hvis hnone hhead henter hprev hloop ha
      ihe ihl =>
    have hloc₁ : loc ∉ log₁ := fun hmem => (henter.of_mem_log hmem).1 (OrdSet.mem_add.2 (.inl rfl))
    have hloc₂ : loc ∉ log₂ := fun hmem => (hloop.of_mem_log hmem).1 (OrdSet.mem_add.2 (.inl rfl))
    have hdisj := henter.disjoint_log hloop fun x _ hf => Cells.fresh_insert rfl (.inl hf)
    rw [List.filter_append, List.filter_append,
      List.filter_cons_of_pos (OrdSet.contains_iff.2 hhead)]
    refine List.nodup_append.2 ⟨List.nodup_append.2 ⟨ihe, ihl, ?_⟩, by simp, ?_⟩
    · rintro x hx y hy rfl
      exact hdisj x (List.mem_of_mem_filter hx) (List.mem_of_mem_filter hy)
    · rintro x hx y hy rfl
      rw [List.filter_nil, List.mem_singleton] at hy
      subst hy
      rcases List.mem_append.1 hx with hx | hx
      · exact hloc₁ (List.mem_of_mem_filter hx)
      · exact hloc₂ (List.mem_of_mem_filter hx)
  | done => exact List.Pairwise.nil
  | step hask hrest ih ih' =>
    rw [List.filter_append]
    refine List.nodup_append.2 ⟨ih, ih', ?_⟩
    rintro x hx y hy rfl
    exact hask.disjoint_log hrest (fun x _ hf => hf) x (List.mem_of_mem_filter hx)
      (List.mem_of_mem_filter hy)

end Runs

/-! ## On which loop heads states depend -/

theorem Skeleton.mem_pending_headAnswer {loc x : Loc} {seen : Option State} {prev next : State}
    {entering looping : OrdSet Loc} :
    x ∈ (headAnswer loc seen prev next entering looping).pending.toList ↔
      (x ≠ loc ∧ (x ∈ entering.toList ∨ x ∈ looping.toList)) ∨
      (x = loc ∧ ((seen = none ∧ loc ∈ entering.toList) ∨ next.implies prev = false)) := by
  have hflag : (seen.isNone && entering.contains loc || !next.implies prev) = true ↔
      (seen = none ∧ loc ∈ entering.toList) ∨ next.implies prev = false := by
    rw [Bool.or_eq_true, Bool.and_eq_true, Option.isNone_iff_eq_none, OrdSet.contains_iff,
      Bool.not_eq_true']
  rw [← hflag, headAnswer]
  dsimp only
  split
  · rename_i h
    rw [OrdSet.mem_add, OrdSet.mem_erase, OrdSet.mem_union]
    exact ⟨fun hx => hx.symm.imp id fun he => ⟨he, h⟩, fun hx => hx.symm.imp And.left id⟩
  · rename_i h
    rw [OrdSet.mem_erase, OrdSet.mem_union]
    exact ⟨.inl, fun hx => hx.resolve_right fun he => h he.2⟩

theorem Skeleton.pending_start (sk : Skeleton) (loc x : Loc) :
    x ∉ (sk.start loc).pending.toList := by
  unfold start
  split <;> exact OrdSet.notMem_empty x

/-- There is a statement from the first location to the second one. -/
def Skeleton.Feeds (sk : Skeleton) (src loc : Loc) : Prop := ∃ stmt, (src, stmt) ∈ sk.inputs loc

section Tracking

variable {sk : Skeleton} {pass : Nat} {V V' : OrdSet Loc} {c c' : Cells}

/-- A loop head that leads to a location, and that is being computed or was computed in the pass. -/
structure Awaits (sk : Skeleton) (pass : Nat) (V : OrdSet Loc) (c : Cells) (h loc : Loc) : Prop
    where
  head : h ∈ sk.heads.toList
  reaches : Relation.ReflTransGen sk.Feeds h loc
  active : h ∈ V.toList ∨ c.Fresh pass h

/-- The states in cells that can be used depend on such heads only. -/
def Tracked (sk : Skeleton) (pass : Nat) (V : OrdSet Loc) (c : Cells) : Prop :=
  ∀ loc cell, c.Usable pass loc cell → ∀ h ∈ cell.pending.toList, Awaits sk pass V c h loc

theorem Tracked.reply (ht : Tracked sk pass V c)
    (hV : ∀ h ∈ V.toList, h ∈ sk.heads.toList) {loc h : Loc}
    (hr : Ready pass V c loc) (hh : h ∈ (reply V c loc).pending.toList) :
    Awaits sk pass V c h loc := by
  by_cases hvis : loc ∈ V.toList
  · rw [reply_of_mem hvis, OrdSet.mem_singleton] at hh
    subst hh
    exact ⟨hV h hvis, .refl, .inl hvis⟩
  · obtain ⟨cell, hu⟩ := hr.resolve_left hvis
    rw [reply_of_get? hvis hu.1] at hh
    exact ht loc cell hu h hh

theorem Tracked.joined (ht : Tracked sk pass V c)
    (hV : ∀ h ∈ V.toList, h ∈ sk.heads.toList) {loc h : Loc}
    {inputs : List (Loc × Stmt)} {acc : Answer}
    (hsub : ∀ input ∈ inputs, input ∈ sk.inputs loc)
    (hready : ∀ input ∈ inputs, Ready pass V c input.1) (hacc : h ∉ acc.pending.toList)
    (hh : h ∈ (joined V c inputs acc).pending.toList) : Awaits sk pass V c h loc := by
  rcases mem_pending_joined.1 hh with hh | ⟨input, hinput, hh⟩
  · exact absurd hh hacc
  · have hawaits := ht.reply hV (hready input hinput) hh
    exact { hawaits with
      reaches := hawaits.reaches.tail ⟨input.2, hsub input hinput⟩ }

/-- Keeping a state of the pass, and then perhaps ending the computation of its location. -/
theorem Tracked.insert (ht : Tracked sk pass V c) {loc : Loc} {cell : Cell}
    (hpass : cell.pass = pass) (hV : ∀ h ∈ V.toList, h = loc ∨ h ∈ V'.toList)
    (hcell : ∀ h ∈ cell.pending.toList, Awaits sk pass V c h loc) :
    Tracked sk pass V' (c.insert loc cell) := by
  have hlift : ∀ h x, Awaits sk pass V c h x → Awaits sk pass V' (c.insert loc cell) h x := by
    intro h x ha
    refine { ha with active := ?_ }
    rcases ha.active with hv | hfresh
    · exact (hV h hv).symm.imp id fun he => Cells.fresh_insert hpass (.inr he)
    · exact .inr (Cells.fresh_insert hpass (.inl hfresh))
  intro x cell' hu h hh
  by_cases hx : x = loc
  · subst hx
    rw [Cells.Usable, OrdMap.get?_insert_self, Option.some.injEq] at hu
    exact hlift h x (hcell h (hu.1 ▸ hh))
  · exact hlift h x (ht x cell' ((Cells.usable_insert_of_ne hx).1 hu) h hh)

theorem Tracked.enter (ht : Tracked sk pass V c) (loc : Loc) : Tracked sk pass (V.add loc) c :=
  fun x cell hu h hh =>
    have ha := ht x cell hu h hh
    { ha with active := ha.active.imp (fun hv => OrdSet.mem_add.2 (.inr hv)) id }

/-- Keeping an iterate of a head that is being computed. -/
theorem Tracked.seed (ht : Tracked sk pass V c) {loc : Loc} (hvis : loc ∈ V.toList)
    (hhead : loc ∈ sk.heads.toList) (prev : State) :
    Tracked sk pass V (c.insert loc ⟨prev, OrdSet.singleton loc, pass⟩) := by
  refine ht.insert rfl (fun h hh => .inr hh) fun h hh => ?_
  cases OrdSet.mem_singleton.1 hh
  exact ⟨hhead, .refl, .inl hvis⟩

theorem Run.tracked {task : Task} {a : Answer} {log : List Loc}
    (h : Run sk pass V task c a c' log)
    (hV : ∀ h ∈ V.toList, h ∈ sk.heads.toList) (ht : Tracked sk pass V c) :
    Tracked sk pass V c' := by
  induction h with
  | iterate hvis => exact ht
  | kept hvis hcell => exact ht
  | plain hvis hnone hplain henter ih =>
    refine (ih hV ht).insert rfl (fun h hh => .inr hh) fun h hh => ?_
    obtain ⟨hready, rfl⟩ := henter.answered
    exact (ih hV ht).joined hV (fun input => Skeleton.mem_of_mem_forwardInputs) hready
      (Skeleton.pending_start _ _ h) hh
  | @head V loc c c₁ c₂ entering looping a prev log₁ log₂ hvis hnone hhead henter hprev hloop ha
      ihe ihl =>
    have hV' : ∀ h ∈ (V.add loc).toList, h ∈ sk.heads.toList := by
      intro h hh
      rcases OrdSet.mem_add.1 hh with rfl | hh
      · exact hhead
      · exact hV h hh
    have hmem : loc ∈ (V.add loc).toList := OrdSet.mem_add.2 (.inl rfl)
    have ht₁ := ihe hV' (ht.enter loc)
    have ht₂ := ihl hV' (ht₁.seed hmem hhead prev)
    refine ht₂.insert rfl (fun h hh => OrdSet.mem_add.1 hh) fun h hh => ?_
    obtain ⟨hready₁, hentering⟩ := henter.answered
    obtain ⟨hready₂, hlooping⟩ := hloop.answered
    subst ha
    rcases Skeleton.mem_pending_headAnswer.1 hh with ⟨hne, hh | hh⟩ | ⟨rfl, -⟩
    · -- what was awaited on entering is still awaited when the head is done
      rw [hentering] at hh
      have hawaits := ht₁.joined hV' (fun input => Skeleton.mem_of_mem_forwardInputs) hready₁
        (Skeleton.pending_start _ _ h) hh
      refine { hawaits with active := hawaits.active.imp id fun hfresh => ?_ }
      exact hloop.frame.fresh (Cells.fresh_insert rfl (.inl hfresh))
    · rw [hlooping] at hh
      exact ht₂.joined hV' (fun input => Skeleton.mem_of_mem_backInputs) hready₂
        (OrdSet.notMem_empty h) hh
    · exact ⟨hhead, .refl, .inl hmem⟩
  | done => exact ht
  | step hask hrest ih ih' => exact ih' hV (ih hV ht)

end Tracking

end Demanded
