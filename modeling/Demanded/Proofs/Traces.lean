import Demanded.Proofs.Persistence
import Demanded.Proofs.SingleDemand

/-!
# Traces of rounds

A round demands the targets one after the other, and each demand may change the cells that the next
one finds.  `DemandGraph.roundGraphs` has the graphs in which rounds end.  The trace has a snapshot
of each of them (`DemandGraph.fixpoint_limited`), so what is known about these graphs is known about
the trace:

* a round leaves a state for each target, and later rounds keep the states of stable ones;
* rounds go on exactly while some target is not stable, so they can be interrupted and taken up
  again, and nothing happens once all are stable.
-/

namespace Demanded

/-- A run never drops a cell. -/
theorem Run.isSome_get? {sk : Skeleton} {pass : Nat} {V : OrdSet Loc} {task : Task} {c c' : Cells}
    {a : Answer} {log : List Loc} (h : Run sk pass V task c a c' log) {x : Loc}
    (hx : (c.get? x).isSome = true) : (c'.get? x).isSome = true := by
  have hinsert : ∀ {c : Cells} {loc : Loc} {cell : Cell}, (c.get? x).isSome = true →
      ((c.insert loc cell).get? x).isSome = true := by
    intro c loc cell hsome
    rw [OrdMap.get?_insert_eq]
    split
    · rfl
    · exact hsome
  induction h with
  | iterate hvis => exact hx
  | kept hvis hcell => exact hx
  | plain hvis hnone hplain henter ih => exact hinsert (ih hx)
  | head hvis hnone hhead henter hprev hloop ha ihe ihl => exact hinsert (ihl (hinsert (ihe hx)))
  | done => exact hx
  | step hask hrest ih ih' => exact ih' (ih hx)

/-- Where all bindings of a list agree with a function, so does the map of the list. -/
theorem OrdMap.get?_ofList_filterMap {κ ν : Type} [Ord κ] [Std.TransOrd κ] [Std.LawfulEqOrd κ]
    [DecidableEq κ] (f : κ → Option ν) (keys : List κ) (k : κ) :
    (OrdMap.ofList (keys.filterMap fun k => (f k).map fun v => (k, v))).get? k =
      if k ∈ keys then f k else none := by
  have hfold : ∀ m : OrdMap κ ν,
      ((keys.filterMap fun k => (f k).map fun v => (k, v)).foldl (fun m e => m.insert e.1 e.2)
        m).get? k = if k ∈ keys then (f k).or (m.get? k) else m.get? k := by
    induction keys with
    | nil => intro m; rfl
    | cons key rest ih =>
      intro m
      rw [List.filterMap_cons]
      cases hf : f key with
      | none =>
        rw [Option.map_none, ih]
        by_cases hk : k = key
        · subst hk
          simp [hf]
        · simp [hk]
      | some v =>
        rw [Option.map_some, List.foldl_cons, ih, OrdMap.get?_insert_eq]
        by_cases hk : k = key
        · subst hk
          simp [hf]
        · simp [hk]
  rw [OrdMap.ofList, hfold]
  simp

namespace DemandGraph

variable {g g₁ g₂ : DemandGraph} {targets : List Loc}

/-! ## One round -/

/-- The graph after a round. -/
def afterRound (targets : List Loc) (g : DemandGraph) : DemandGraph :=
  (demandAll targets #[] g).graph

/-- A round does not depend on what was reported before. -/
theorem demandAll_congr (targets : List Loc) (events events' : Array Event) (g : DemandGraph) :
    (demandAll targets events g).result = (demandAll targets events' g).result ∧
      (demandAll targets events g).graph = (demandAll targets events' g).graph := by
  induction targets generalizing events events' g with
  | nil => exact ⟨rfl, rfl⟩
  | cons loc rest ih =>
    rw [demandAll, demandAll]
    split
    · exact ih _ _ _
    · dsimp only
      split
      · exact ⟨rfl, rfl⟩
      · exact ih _ _ _

theorem graph_demandAll_eq (targets : List Loc) (events : Array Event) (g : DemandGraph) :
    (demandAll targets events g).graph = g.afterRound targets :=
  (demandAll_congr targets events #[] g).2

/-- A round fails at the first target that is no location of the program. -/
theorem demandAll_result (hg : g.Reached) (targets : List Loc) (events : Array Event) :
    (demandAll targets events g).result =
      match targets.find? fun loc => !g.flow.contains loc with
      | none => .ok ()
      | some loc => .error (.noSuchNode (.state loc)) := by
  induction targets generalizing events g with
  | nil => rfl
  | cons loc rest ih =>
    have hserves := g.serves_get (.state loc)
    rw [demandAll]
    by_cases hloc : loc ∈ g.flow.graph.nodes
    · rw [List.find?_cons_of_neg (by simp [FlowGraph.contains_iff.2 hloc])]
      split
      · exact ih hg events
      · dsimp only
        split
        · rename_i e he
          exact absurd (state_mem_nodes.2 hloc) (hserves.fails_iff.1 ⟨e, he⟩)
        · rw [ih (.get (.state loc) hg), hserves.flow]
    · have hcontains : g.flow.contains loc = false := by
        rw [← Bool.not_eq_true, FlowGraph.contains_iff]
        exact hloc
      -- a location that the program does not have has no state
      have hunstable : ¬g.isStable (.state loc) = true := fun hstable => by
        obtain ⟨cell, hget, -⟩ := isStable_iff.1 hstable
        exact hloc (hg.mem_nodes (by rw [hget]; rfl))
      obtain ⟨e, he⟩ := hserves.fails_iff.2 fun h => hloc (state_mem_nodes.1 h)
      rw [List.find?_cons_of_pos (by simp [hcontains]), if_neg hunstable]
      dsimp only
      rw [he, (hserves.unchanged he).1]

theorem demandAll_ok (hg : g.Reached) (htargets : ∀ loc ∈ targets, loc ∈ g.flow.graph.nodes)
    (events : Array Event) : (demandAll targets events g).result = .ok () := by
  have hfind : targets.find? (fun loc => !g.flow.contains loc) = none :=
    List.find?_eq_none.2 fun loc hloc => by simp [FlowGraph.contains_iff.2 (htargets loc hloc)]
  rw [demandAll_result hg, hfind]

theorem Reached.afterRound (hg : g.Reached) (targets : List Loc) :
    (g.afterRound targets).Reached :=
  graph_demandAll (fun _ name h => .get name h) targets #[] hg

theorem Coherent.keeps_afterRound (hc : g.Coherent) (targets : List Loc) :
    g.Keeps (g.afterRound targets) :=
  (graph_demandAll (P := fun g' => g'.Coherent ∧ g.Keeps g')
    (fun _ name h => ⟨h.1.get name, .trans hc h.2 (h.1.keeps_get name)⟩) targets #[]
    ⟨hc, .refl g⟩).2

/-- A demand never drops a cell. -/
theorem isSome_get (name : NodeName) {x : Loc} (hx : (g.cells.get? x).isSome = true) :
    ((g.get name).graph.cells.get? x).isSome = true := by
  have hserves := g.serves_get name
  generalize g.get name = out at hserves ⊢
  cases hserves with
  | refused hname => exact hx
  | stmt hname hloc => exact hx
  | run hname hrun hreports => exact hrun.isSome_get? hx

/-- A round leaves a state for each target. -/
theorem isSome_demandAll (hg : g.Reached) (htargets : ∀ loc ∈ targets, loc ∈ g.flow.graph.nodes)
    (events : Array Event) :
    ∀ loc ∈ targets, ((demandAll targets events g).graph.cells.get? loc).isSome = true := by
  have hkept : ∀ {g : DemandGraph} (rest : List Loc) (events : Array Event) (x : Loc),
      (g.cells.get? x).isSome = true →
        ((demandAll rest events g).graph.cells.get? x).isSome = true := fun rest events x =>
    graph_demandAll (P := fun g => (g.cells.get? x).isSome = true)
      (fun _ name h => isSome_get name h) rest events
  induction targets generalizing events g with
  | nil => exact fun loc h => absurd h List.not_mem_nil
  | cons loc rest ih =>
    obtain ⟨hloc, hrest⟩ := List.forall_mem_cons.1 htargets
    rw [demandAll]
    split
    · rename_i hstable
      obtain ⟨cell, hget, -⟩ := isStable_iff.1 hstable
      exact List.forall_mem_cons.2 ⟨hkept rest events loc (by rw [hget]; rfl), ih hg hrest events⟩
    · have hserves := g.serves_get (.state loc)
      obtain ⟨a, m, log, cell, -, hu, hout⟩ := hserves.answered hg.coherent hloc
      have hflow := hserves.flow
      have hreached : (g.get (.state loc)).graph.Reached := .get _ hg
      rw [hout] at hflow hreached ⊢
      exact List.forall_mem_cons.2 ⟨hkept rest _ loc (by rw [resume, hu.1]; rfl),
        ih hreached (by rwa [hflow]) _⟩

/-- A round does nothing if the targets are stable. -/
theorem afterRound_of_stable (h : ∀ loc ∈ targets, g.isStable (.state loc) = true) :
    g.afterRound targets = g := by
  rw [afterRound]
  generalize (#[] : Array Event) = events
  induction targets with
  | nil => rfl
  | cons loc rest ih =>
    obtain ⟨hloc, hrest⟩ := List.forall_mem_cons.1 h
    rw [demandAll, if_pos hloc]
    exact ih hrest

theorem get?_snapshot (g : DemandGraph) (targets : List Loc) (loc : Loc) :
    (g.snapshot targets).states.get? loc = if loc ∈ targets then g.cached? loc else none :=
  OrdMap.get?_ofList_filterMap g.cached? targets loc

/-! ## Rounds one after the other -/

/-- The graphs in which rounds end.  There are `n` rounds, or fewer if the targets are stable at the
end of one. -/
def roundGraphs (targets : List Loc) : Nat → DemandGraph → List DemandGraph
  | 0, _ => []
  | n + 1, g =>
    g.afterRound targets ::
      if ((g.afterRound targets).snapshot targets).stable then []
      else roundGraphs targets n (g.afterRound targets)

/-- The graph in which the last round ends. -/
def afterRounds (targets : List Loc) (n : Nat) (g : DemandGraph) : DemandGraph :=
  (roundGraphs targets n g).getLastD g

theorem roundGraphs_succ_of_stable (h : ((g.afterRound targets).snapshot targets).stable = true)
    (n : Nat) : roundGraphs targets (n + 1) g = [g.afterRound targets] := by
  rw [roundGraphs, if_pos h]

theorem roundGraphs_succ_of_not_stable
    (h : ((g.afterRound targets).snapshot targets).stable = false) (n : Nat) :
    roundGraphs targets (n + 1) g =
      g.afterRound targets :: roundGraphs targets n (g.afterRound targets) := by
  rw [roundGraphs, if_neg (by simp [h])]

theorem afterRounds_succ_of_not_stable
    (h : ((g.afterRound targets).snapshot targets).stable = false) (n : Nat) :
    afterRounds targets (n + 1) g = afterRounds targets n (g.afterRound targets) := by
  rw [afterRounds, afterRounds, roundGraphs_succ_of_not_stable h, List.getLastD_cons]

theorem length_roundGraphs_le (targets : List Loc) (n : Nat) (g : DemandGraph) :
    (roundGraphs targets n g).length ≤ n := by
  induction n generalizing g with
  | zero => exact Nat.le_refl 0
  | succ n ih =>
    cases h : ((g.afterRound targets).snapshot targets).stable with
    | true =>
      rw [roundGraphs_succ_of_stable h]
      exact Nat.succ_le_succ (Nat.zero_le n)
    | false =>
      rw [roundGraphs_succ_of_not_stable h]
      exact Nat.succ_le_succ (ih _)

/-- No round follows one at whose end the targets are stable. -/
theorem eq_length_of_stable {n i : Nat} (hi : (roundGraphs targets n g)[i]? = some g₁)
    (h₁ : (g₁.snapshot targets).stable = true) : i + 1 = (roundGraphs targets n g).length := by
  induction n generalizing g i with
  | zero => simp [roundGraphs] at hi
  | succ n ih =>
    cases h : ((g.afterRound targets).snapshot targets).stable with
    | true =>
      rw [roundGraphs_succ_of_stable h] at hi ⊢
      cases i with
      | zero => rfl
      | succ i => simp at hi
    | false =>
      rw [roundGraphs_succ_of_not_stable h] at hi ⊢
      cases i with
      | zero =>
        cases hi
        rw [h] at h₁
        cases h₁
      | succ i => exact congrArg Nat.succ (ih hi)

/-- Rounds end early only if the targets are stable. -/
theorem exists_stable_of_length_lt {n : Nat} (hn : (roundGraphs targets n g).length < n) :
    ∃ last, (roundGraphs targets n g).getLast? = some last ∧
      (last.snapshot targets).stable = true := by
  induction n generalizing g with
  | zero => exact absurd hn (Nat.not_lt_zero _)
  | succ n ih =>
    cases h : ((g.afterRound targets).snapshot targets).stable with
    | true =>
      rw [roundGraphs_succ_of_stable h]
      exact ⟨_, rfl, h⟩
    | false =>
      rw [roundGraphs_succ_of_not_stable h] at hn ⊢
      obtain ⟨last, hlast, hstable⟩ := ih (Nat.lt_of_succ_lt_succ hn)
      exact ⟨last, by rw [List.getLast?_cons, hlast]; rfl, hstable⟩

/-- Fewer rounds are the first of more rounds. -/
theorem roundGraphs_take {i n : Nat} (hi : i ≤ n) (g : DemandGraph) :
    roundGraphs targets i g = (roundGraphs targets n g).take i := by
  induction n generalizing g i with
  | zero =>
    obtain rfl := Nat.le_zero.1 hi
    rfl
  | succ n ih =>
    cases i with
    | zero => rfl
    | succ i =>
      cases h : ((g.afterRound targets).snapshot targets).stable with
      | true => rw [roundGraphs_succ_of_stable h, roundGraphs_succ_of_stable h, List.take_succ_cons,
          List.take_nil]
      | false =>
        rw [roundGraphs_succ_of_not_stable h, roundGraphs_succ_of_not_stable h,
          List.take_succ_cons, ih (Nat.le_of_succ_le_succ hi)]

/-- The graph in which a round ends is reached by as many rounds. -/
theorem afterRounds_of_getElem? {n i : Nat} (hi : (roundGraphs targets n g)[i]? = some g₁) :
    afterRounds targets (i + 1) g = g₁ := by
  have hlt : i < (roundGraphs targets n g).length := (List.getElem?_eq_some_iff.1 hi).1
  have hle : i + 1 ≤ n := Nat.le_trans hlt (length_roundGraphs_le targets n g)
  rw [afterRounds, roundGraphs_take hle, List.getLastD_eq_getLast?, List.getLast?_take]
  simp [hi]

/-- Rounds that do not make the targets stable can be taken up where they ended. -/
theorem roundGraphs_add {n : Nat}
    (h : ∀ g' ∈ roundGraphs targets n g, (g'.snapshot targets).stable = false) (m : Nat) :
    roundGraphs targets (n + m) g =
      roundGraphs targets n g ++ roundGraphs targets m (afterRounds targets n g) := by
  induction n generalizing g with
  | zero => rw [Nat.zero_add]; rfl
  | succ n ih =>
    cases hs : ((g.afterRound targets).snapshot targets).stable with
    | true =>
      rw [roundGraphs_succ_of_stable hs] at h
      rw [h _ List.mem_cons_self] at hs
      cases hs
    | false =>
      rw [Nat.add_right_comm, roundGraphs_succ_of_not_stable hs]
      rw [roundGraphs_succ_of_not_stable hs] at h
      rw [ih fun g' hg' => h g' (List.mem_cons_of_mem _ hg'), roundGraphs_succ_of_not_stable hs,
        afterRounds_succ_of_not_stable hs, List.cons_append]

theorem afterRounds_add {n : Nat}
    (h : ∀ g' ∈ roundGraphs targets n g, (g'.snapshot targets).stable = false) (m : Nat) :
    afterRounds targets (n + m) g = afterRounds targets m (afterRounds targets n g) := by
  rw [afterRounds, roundGraphs_add h, List.getLastD_eq_getLast?, List.getLast?_append,
    Option.getD_or, ← List.getLastD_eq_getLast?, ← List.getLastD_eq_getLast?]
  rfl

/-- If the targets are stable, one round ends where it began. -/
theorem roundGraphs_of_stable (h : ∀ loc ∈ targets, g.isStable (.state loc) = true) {n : Nat}
    (hn : 0 < n) : roundGraphs targets n g = [g] := by
  obtain ⟨n, rfl⟩ := Nat.exists_eq_add_of_le' hn
  have hround := afterRound_of_stable h
  have hstable : ((g.afterRound targets).snapshot targets).stable = true := by
    rw [hround]
    exact snapshot_stable_iff.2 h
  rw [roundGraphs_succ_of_stable hstable, hround]

/-- What the graphs in which rounds end have in common: they are reached, they keep what was there
before, and they have a state for each target. -/
theorem mem_roundGraphs (hg : g.Reached) (htargets : ∀ loc ∈ targets, loc ∈ g.flow.graph.nodes)
    {n : Nat} : ∀ g' ∈ roundGraphs targets n g, g'.Reached ∧ g.Keeps g' ∧
      ∀ loc ∈ targets, (g'.cells.get? loc).isSome = true := by
  have hkeeps := hg.coherent.keeps_afterRound targets
  have hround : (g.afterRound targets).Reached ∧ g.Keeps (g.afterRound targets) ∧
      ∀ loc ∈ targets, ((g.afterRound targets).cells.get? loc).isSome = true :=
    ⟨hg.afterRound targets, hkeeps, isSome_demandAll hg htargets #[]⟩
  induction n generalizing g with
  | zero => exact fun g' h => absurd h List.not_mem_nil
  | succ n ih =>
    rw [roundGraphs]
    refine List.forall_mem_cons.2 ⟨hround, ?_⟩
    split
    · exact fun g' h => absurd h List.not_mem_nil
    · intro g' hmem
      have htargets' : ∀ loc ∈ targets, loc ∈ (g.afterRound targets).flow.graph.nodes := by
        rwa [hkeeps.flow]
      have hkeeps' := hround.1.coherent.keeps_afterRound targets
      obtain ⟨hreached, hlater, hsome⟩ := ih hround.1 htargets' hkeeps'
        ⟨hround.1.afterRound targets, hkeeps', isSome_demandAll hround.1 htargets' #[]⟩ g' hmem
      exact ⟨hreached, hkeeps.trans hg.coherent hlater, hsome⟩

theorem afterRounds_keeps (hg : g.Reached) (htargets : ∀ loc ∈ targets, loc ∈ g.flow.graph.nodes)
    (n : Nat) : (afterRounds targets n g).Reached ∧ g.Keeps (afterRounds targets n g) := by
  rw [afterRounds, List.getLastD_eq_getLast?]
  cases hlast : (roundGraphs targets n g).getLast? with
  | none => exact ⟨hg, .refl g⟩
  | some g' =>
    obtain ⟨hreached, hkeeps, -⟩ := mem_roundGraphs hg htargets g' (List.mem_of_getLast? hlast)
    exact ⟨hreached, hkeeps⟩

/-- Later rounds keep what earlier rounds left. -/
theorem pairwise_roundGraphs (hg : g.Reached)
    (htargets : ∀ loc ∈ targets, loc ∈ g.flow.graph.nodes) (n : Nat) :
    (roundGraphs targets n g).Pairwise Keeps := by
  induction n generalizing g with
  | zero => exact .nil
  | succ n ih =>
    have htargets' : ∀ loc ∈ targets, loc ∈ (g.afterRound targets).flow.graph.nodes := by
      rwa [(hg.coherent.keeps_afterRound targets).flow]
    have hround := hg.afterRound targets
    rw [roundGraphs]
    split
    · exact List.pairwise_singleton _ _
    · exact .cons (fun g' hmem => (mem_roundGraphs hround htargets' g' hmem).2.1)
        (ih hround htargets')

/-! ## Traces -/

/-- The snapshots at the ends of rounds. -/
def roundShots (targets : List Loc) (n : Nat) (g : DemandGraph) : List Snapshot :=
  (roundGraphs targets n g).map fun g' => g'.snapshot targets

/-- What rounds lead to.  Without a limit there is no result unless the targets become stable. -/
theorem runRounds_eq (hg : g.Reached) (htargets : ∀ loc ∈ targets, loc ∈ g.flow.graph.nodes)
    (limited : Bool) (fuel : Nat) (history : List Snapshot) (events : Array Event) :
    (runRounds targets limited fuel history events g).graph = afterRounds targets fuel g ∧
      (runRounds targets limited fuel history events g).result =
        if limited || (roundShots targets fuel g).any Snapshot.stable then
          .ok (history ++ roundShots targets fuel g)
        else .error (.unsettled (.state (targets.headD .entry))) := by
  induction fuel generalizing history events g with
  | zero =>
    rw [runRounds]
    cases limited <;> simp [afterRounds, roundShots, roundGraphs]
  | succ fuel ih =>
    have hok := demandAll_ok hg htargets events
    rw [runRounds]
    simp only [hok, graph_demandAll_eq]
    cases h : ((g.afterRound targets).snapshot targets).stable with
    | true => simp [afterRounds, roundShots, roundGraphs_succ_of_stable h, h]
    | false =>
      have htargets' : ∀ loc ∈ targets, loc ∈ (g.afterRound targets).flow.graph.nodes := by
        rwa [(hg.coherent.keeps_afterRound targets).flow]
      obtain ⟨hgraph, hresult⟩ := ih (hg.afterRound targets) htargets'
        (history ++ [(g.afterRound targets).snapshot targets])
        ((demandAll targets events g).events.push (.roundDone
          (history ++ [(g.afterRound targets).snapshot targets]).length targets.length false))
      have hshots : roundShots targets (fuel + 1) g =
          (g.afterRound targets).snapshot targets ::
            roundShots targets fuel (g.afterRound targets) := by
        rw [roundShots, roundGraphs_succ_of_not_stable h]
        rfl
      refine ⟨hgraph.trans (afterRounds_succ_of_not_stable h fuel).symm, hresult.trans ?_⟩
      rw [hshots, List.any_cons, h, Bool.false_or, List.append_assoc]
      rfl

/-- With a limit there is a trace, and it has the snapshots at the ends of the rounds. -/
theorem fixpoint_limited (hg : g.Reached) (htargets : ∀ loc ∈ targets, loc ∈ g.flow.graph.nodes)
    (patience n : Nat) :
    (g.fixpoint patience targets (some n)).result = .ok (roundShots targets n g) ∧
      (g.fixpoint patience targets (some n)).graph = afterRounds targets n g := by
  obtain ⟨hgraph, hresult⟩ := runRounds_eq hg htargets true n [] #[]
  exact ⟨hresult, hgraph⟩

/-- A trace that is found without a limit is the one with a limit. -/
theorem fixpoint_ok (hg : g.Reached) (htargets : ∀ loc ∈ targets, loc ∈ g.flow.graph.nodes)
    {patience : Nat} {limit : Option Nat} {trace : List Snapshot}
    (h : (g.fixpoint patience targets limit).result = .ok trace) :
    trace = roundShots targets (limit.getD patience) g ∧
      (g.fixpoint patience targets limit).graph = afterRounds targets (limit.getD patience) g := by
  obtain ⟨hgraph, hresult⟩ := runRounds_eq hg htargets limit.isSome (limit.getD patience) [] #[]
  refine ⟨?_, hgraph⟩
  rw [fixpoint, hresult] at h
  split at h
  · exact (Except.ok.inj h).symm
  · cases h

/-- If the targets are stable, they are demanded once more and nothing changes. -/
theorem fixpoint_of_stable (hg : g.Reached) (htargets : ∀ loc ∈ targets, loc ∈ g.flow.graph.nodes)
    (h : ∀ loc ∈ targets, g.isStable (.state loc) = true) {patience : Nat} {limit : Option Nat}
    (hlimit : 0 < limit.getD patience) :
    (g.fixpoint patience targets limit).result = .ok [g.snapshot targets] ∧
      (g.fixpoint patience targets limit).graph = g := by
  obtain ⟨hgraph, hresult⟩ := runRounds_eq hg htargets limit.isSome (limit.getD patience) [] #[]
  have hrounds := roundGraphs_of_stable h hlimit
  have hshots : roundShots targets (limit.getD patience) g = [g.snapshot targets] := by
    rw [roundShots, hrounds]
    rfl
  rw [hshots, List.any_cons, snapshot_stable_iff.2 h, Bool.true_or, Bool.or_true, if_pos rfl]
    at hresult
  rw [afterRounds, hrounds] at hgraph
  exact ⟨hresult, hgraph⟩

/-- The snapshot of a round is that of the graph in which the round ends. -/
theorem snapshot_of_getElem? {n i : Nat} {shot : Snapshot}
    (h : (roundShots targets n g)[i]? = some shot) :
    (roundGraphs targets n g)[i]? = some (afterRounds targets (i + 1) g) ∧
      shot = (afterRounds targets (i + 1) g).snapshot targets := by
  rw [roundShots, List.getElem?_map] at h
  obtain ⟨g₁, hi, rfl⟩ := Option.map_eq_some_iff.1 h
  rw [afterRounds_of_getElem? hi]
  exact ⟨hi, rfl⟩

theorem snapshot_of_getLast? {n : Nat} {last : Snapshot}
    (h : (roundShots targets n g).getLast? = some last) :
    last = (afterRounds targets n g).snapshot targets := by
  rw [roundShots, List.getLast?_map] at h
  obtain ⟨g', hlast, rfl⟩ := Option.map_eq_some_iff.1 h
  rw [afterRounds, List.getLastD_eq_getLast?, hlast, Option.getD_some]

/-- The states of a snapshot are those of the targets. -/
theorem contains_roundShots (hg : g.Reached)
    (htargets : ∀ loc ∈ targets, loc ∈ g.flow.graph.nodes) {n : Nat} {shot : Snapshot}
    (h : shot ∈ roundShots targets n g) (loc : Loc) :
    shot.states.contains loc = true ↔ loc ∈ targets := by
  obtain ⟨g', hmem, rfl⟩ := List.mem_map.1 h
  rw [OrdMap.contains, get?_snapshot]
  by_cases hloc : loc ∈ targets
  · rw [if_pos hloc, cached?, Option.isSome_map]
    exact iff_of_true ((mem_roundGraphs hg htargets g' hmem).2.2 loc hloc) hloc
  · rw [if_neg hloc]
    exact iff_of_false (by simp) hloc

/-- A target that is stable after a round has the same state in all later snapshots. -/
theorem get?_of_stable (hg : g.Reached) (htargets : ∀ loc ∈ targets, loc ∈ g.flow.graph.nodes)
    {n i j : Nat} {shot later : Snapshot} (hi : (roundShots targets n g)[i]? = some shot)
    (hj : (roundShots targets n g)[j]? = some later) (hij : i ≤ j) {loc : Loc}
    (hloc : loc ∈ targets)
    (hstable : (afterRounds targets (i + 1) g).isStable (.state loc) = true) :
    later.states.get? loc = shot.states.get? loc := by
  obtain ⟨hgi, rfl⟩ := snapshot_of_getElem? hi
  obtain ⟨hgj, rfl⟩ := snapshot_of_getElem? hj
  rcases Nat.eq_or_lt_of_le hij with rfl | hlt
  · rfl
  · have hkeeps : (afterRounds targets (i + 1) g).Keeps (afterRounds targets (j + 1) g) := by
      obtain ⟨hi', heqi⟩ := List.getElem?_eq_some_iff.1 hgi
      obtain ⟨hj', heqj⟩ := List.getElem?_eq_some_iff.1 hgj
      rw [← heqi, ← heqj]
      exact List.pairwise_iff_getElem.1 (pairwise_roundGraphs hg htargets n) i j hi' hj' hlt
    obtain ⟨cell, hget, hfinal⟩ := isStable_iff.1 hstable
    rw [get?_snapshot, get?_snapshot, if_pos hloc, if_pos hloc, cached?_eq_some hget,
      cached?_eq_some (hkeeps.final loc cell hget hfinal)]

/-- With a limit there is a trace of at most so many rounds, fewer only if the last one made the
targets stable.  A snapshot has the states of the targets in the graph in which its round ends, only
the last one can be stable, and a target that is stable after a round has the same state in all
later snapshots.  If no snapshot is stable, further rounds continue the trace: both traces together
and the last graph are those of one run with both limits added.  Once the targets are stable,
further rounds give one snapshot, the last one again, and leave the graph as it is. -/
theorem fixpoint_resumable (hg : g.Reached) (htargets : ∀ loc ∈ targets, loc ∈ g.flow.graph.nodes)
    (patience n m : Nat) :
    (∃ shots, (g.fixpoint patience targets (some n)).result = .ok shots ∧
      shots.length ≤ n ∧
      (shots.length < n → ∃ last, shots.getLast? = some last ∧ last.stable = true) ∧
      (∀ i shot, shots[i]? = some shot →
        shot = (g.fixpoint patience targets (some (i + 1))).graph.snapshot targets ∧
        (∀ loc, shot.states.contains loc = true ↔ loc ∈ targets) ∧
        (shot.stable = true → i + 1 = shots.length) ∧
        ∀ j later, i ≤ j → shots[j]? = some later → ∀ loc ∈ targets,
          (g.fixpoint patience targets (some (i + 1))).graph.isStable (.state loc) = true →
            later.states.get? loc = shot.states.get? loc) ∧
      ((∀ shot ∈ shots, shot.stable = false) → ∃ rest,
        ((g.fixpoint patience targets (some n)).graph.fixpoint patience targets (some m)).result =
          .ok rest ∧
        (g.fixpoint patience targets (some (n + m))).result = .ok (shots ++ rest) ∧
        (g.fixpoint patience targets (some (n + m))).graph =
          ((g.fixpoint patience targets (some n)).graph.fixpoint patience targets
            (some m)).graph)) ∧
    ∀ first shots last, (g.fixpoint patience targets first).result = .ok shots →
      shots.getLast? = some last → last.stable = true →
      ∀ patience' limit, 0 < limit.getD patience' →
        ((g.fixpoint patience targets first).graph.fixpoint patience' targets limit).result =
          .ok [last] ∧
        ((g.fixpoint patience targets first).graph.fixpoint patience' targets limit).graph =
          (g.fixpoint patience targets first).graph := by
  have hlimited := fixpoint_limited hg htargets patience
  have hafter := afterRounds_keeps hg htargets
  have htargets' : ∀ n, ∀ loc ∈ targets, loc ∈ (afterRounds targets n g).flow.graph.nodes := by
    intro n
    rwa [(hafter n).2.flow]
  refine ⟨⟨_, (hlimited n).1, ?_, fun hlt => ?_, fun i shot hi => ?_, fun hunstable => ?_⟩, ?_⟩
  · rw [roundShots, List.length_map]
    exact length_roundGraphs_le targets n g
  · rw [roundShots, List.length_map] at hlt
    obtain ⟨last, hlast, hstable⟩ := exists_stable_of_length_lt hlt
    exact ⟨_, by rw [roundShots, List.getLast?_map, hlast]; rfl, hstable⟩
  · rw [(hlimited (i + 1)).2]
    obtain ⟨hgi, heq⟩ := snapshot_of_getElem? hi
    refine ⟨heq, contains_roundShots hg htargets (List.mem_of_getElem? hi), fun hstable => ?_,
      fun j later hij hj loc hloc => get?_of_stable hg htargets hi hj hij hloc⟩
    rw [roundShots, List.length_map]
    exact eq_length_of_stable hgi (heq ▸ hstable)
  · rw [(hlimited n).2]
    obtain ⟨hresult, hgraph⟩ := fixpoint_limited (hafter n).1 (htargets' n) patience m
    have hgoing : ∀ g' ∈ roundGraphs targets n g, (g'.snapshot targets).stable = false :=
      fun g' hmem => hunstable _ (List.mem_map_of_mem hmem)
    refine ⟨_, hresult, ?_, ?_⟩
    · rw [(hlimited (n + m)).1, roundShots, roundGraphs_add hgoing, List.map_append]
      rfl
    · rw [(hlimited (n + m)).2, hgraph, afterRounds_add hgoing]
  · intro first shots last hshots hlast hstable patience' limit hlimit
    obtain ⟨rfl, hgraph⟩ := fixpoint_ok hg htargets hshots
    obtain rfl := snapshot_of_getLast? hlast
    rw [hgraph]
    exact fixpoint_of_stable (hafter _).1 (htargets' _) (snapshot_stable_iff.1 hstable) hlimit

/-- A location before the loop of `laggingLoop`, the end, and the first one again. -/
def aroundLoop : List Loc := [.id 0, .exit, .id 0]

/-- Three rounds around a loop, the last two of them taken up after the first one.  Before the loop
the first state is the last one, and afterwards nothing changes any more. -/
theorem fixpoint_resumable_laggingLoop :
    ∃ shots rest last, ((ofFlow laggingLoop).fixpoint 6 aroundLoop (some 1)).result = .ok shots ∧
      shots.length = 1 ∧
      (((ofFlow laggingLoop).fixpoint 6 aroundLoop (some 1)).graph.fixpoint 6 aroundLoop
        (some 5)).result = .ok rest ∧
      rest.length = 2 ∧
      ((ofFlow laggingLoop).fixpoint 6 aroundLoop (some 6)).result = .ok (shots ++ rest) ∧
      (shots ++ rest).getLast? = some last ∧
      (∀ shot ∈ shots, shot.states.get? (.id 0) = last.states.get? (.id 0)) ∧
      (((ofFlow laggingLoop).fixpoint 6 aroundLoop (some 6)).graph.fixpoint 6 aroundLoop
        none).result = .ok [last] := by
  have hfacts : (∀ loc ∈ aroundLoop, loc ∈ (ofFlow laggingLoop).flow.graph.nodes) ∧
      (((ofFlow laggingLoop).fixpoint 6 aroundLoop (some 1)).result.toOption.map
        (List.map Snapshot.stable)) = some [false] ∧
      (((ofFlow laggingLoop).fixpoint 6 aroundLoop (some 6)).result.toOption.map
        (List.map Snapshot.stable)) = some [false, false, true] ∧
      ((ofFlow laggingLoop).fixpoint 6 aroundLoop (some 1)).graph.isStable (.state (.id 0)) =
        true := by
    decide +kernel
  obtain ⟨hnodes, hone, hsix, hbefore⟩ := hfacts
  obtain ⟨⟨shots, hshots, -, -, -, hresume⟩, -⟩ :=
    fixpoint_resumable (.ofFlow laggingLoop) hnodes 6 1 5
  obtain ⟨⟨both, hboth, -, -, hround, -⟩, hagain⟩ :=
    fixpoint_resumable (.ofFlow laggingLoop) hnodes 6 6 0
  rw [hshots, Except.toOption, Option.map_some, Option.some.injEq] at hone
  rw [hboth, Except.toOption, Option.map_some, Option.some.injEq] at hsix
  have hgoing : ∀ shot ∈ shots, shot.stable = false := by
    intro shot hmem
    have hstable := List.mem_map_of_mem (f := Snapshot.stable) hmem
    rwa [hone, List.mem_singleton] at hstable
  obtain ⟨rest, hrest, htogether, -⟩ := hresume hgoing
  obtain rfl : both = shots ++ rest := Except.ok.inj (hboth.symm.trans htogether)
  have hlengths : shots.length = 1 ∧ (shots ++ rest).length = 3 := by
    rw [← List.length_map Snapshot.stable, hone, ← List.length_map Snapshot.stable, hsix]
    exact ⟨rfl, rfl⟩
  obtain ⟨last, hlast⟩ : ∃ last, (shots ++ rest)[2]? = some last :=
    ⟨_, List.getElem?_eq_getElem (by omega)⟩
  have hlast' : (shots ++ rest).getLast? = some last := by
    rw [List.getLast?_eq_getElem?, hlengths.2, hlast]
  have hstable : last.stable = true := by
    have hthird := congrArg (fun l => l[2]?) hsix
    rw [List.getElem?_map, hlast] at hthird
    exact Option.some.inj hthird
  obtain ⟨first, hfirst⟩ := List.length_eq_one_iff.1 hlengths.1
  subst hfirst
  obtain ⟨-, -, -, hkept⟩ := hround 0 first rfl
  refine ⟨[first], rest, last, hshots, rfl, hrest, ?_, hboth, hlast', ?_,
    (hagain _ _ last hboth hlast' hstable 6 none (by decide)).1⟩
  · have := hlengths.2
    simpa using this
  · exact List.forall_mem_singleton.2
      (hkept 2 last (by decide) hlast (.id 0) (by decide) hbefore).symm

end DemandGraph

end Demanded
