import Mathlib.Algebra.Order.Monoid.Prod
import Mathlib.Order.Preorder.Finite
import Demanded.Bounds.Demo
import Demanded.Proofs.Histories
import Demanded.Proofs.Widening

/-!
# Loops that are not nested converge

A pass that does not make the demanded location stable makes progress at some loop head: the head
gets its first state, or widening drops a bound of its state, or it becomes final.  All this lowers
a rank, and nothing raises it.

Suppose that a pass makes no progress.  Then the heads that it computes keep their states, so none
of them waits for itself, and each waits for another one that it computed and that leads to it.
Among finitely many heads this makes two that lead to each other.
-/

namespace Demanded

/-! ## What a run does to a loop head -/

/-- The cell of a loop head stays, or it could not be used and is replaced.  Then the new state
extrapolates from the old one, and a head whose state stays the same does not wait for itself. -/
def HeadStep (pass : Nat) (c c' : Cells) (h : Loc) : Prop :=
  c'.get? h = c.get? h ∨
    ∃ new, c'.get? h = some new ∧ new.pass = pass ∧ (∀ cell, ¬c.Usable pass h cell) ∧
      ∀ old, c.get? h = some old → (∃ t, new.value = old.value.widen t) ∧
        (new.value = old.value → h ∉ new.pending.toList)

section Heads

variable {sk : Skeleton} {pass : Nat} {V : OrdSet Loc} {c c₁ c₂ c' : Cells} {h : Loc}

theorem HeadStep.trans (hs : HeadStep pass c c₁ h) (hframe : Frame pass V c c₁)
    (hs' : HeadStep pass c₁ c₂ h) : HeadStep pass c c₂ h := by
  rcases hs with heq | ⟨new, hget, hpass, hrest⟩
  · rcases hs' with heq' | ⟨new, hget, hpass, hnone, hnew⟩
    · exact .inl (heq'.trans heq)
    · refine .inr ⟨new, hget, hpass, fun cell hu => hnone cell (hframe.keeps hu), ?_⟩
      rwa [heq] at hnew
  · -- a head that was computed can be used, so it is not computed again
    rcases hs' with heq' | ⟨-, -, -, hnone, -⟩
    · exact .inr ⟨new, heq'.trans hget, hpass, hrest⟩
    · exact absurd ⟨hget, .inr hpass⟩ (hnone new)

theorem HeadStep.insert_of_ne (hs : HeadStep pass c c' h) {loc : Loc} (hne : h ≠ loc)
    (cell : Cell) : HeadStep pass c (c'.insert loc cell) h := by
  rwa [HeadStep, OrdMap.get?_insert_of_ne _ _ hne]

theorem Run.headStep {task : Task} {a : Answer} {log : List Loc}
    (hrun : Run sk pass V task c a c' log) (hhead : h ∈ sk.heads.toList) (hvis : h ∉ V.toList) :
    HeadStep pass c c' h := by
  induction hrun with
  | iterate hmem => exact .inl rfl
  | kept hnot hcell => exact .inl rfl
  | plain hnot hnone hplain henter ih =>
    refine (ih hvis).insert_of_ne ?_ _
    rintro rfl
    exact hplain hhead
  | @head V loc c c₁ c₂ entering looping a prev log₁ log₂ hnot hnone hloc henter hprev hloop ha
      ihe ihl =>
    by_cases hne : h = loc
    · subst hne
      refine .inr ⟨_, OrdMap.get?_insert_self _ _ _, rfl, hnone, fun old hold => ?_⟩
      have hseen : c.value? h = some old.value := by rw [Cells.value?, hold]; rfl
      rw [hseen, Option.getD_some] at hprev
      subst hprev
      have hstate : a.state = old.value.widen (entering.state.join looping.state) := by rw [ha]; rfl
      refine ⟨⟨_, hstate⟩, fun hsame hpending => ?_⟩
      have hsame : a.state = old.value := hsame
      have hpending : h ∈ a.pending.toList := hpending
      rw [ha, hseen, ← hstate, hsame, Skeleton.mem_pending_headAnswer, State.implies_refl]
        at hpending
      simp at hpending
    · have hvis' : h ∉ (V.add loc).toList := fun hmem =>
        (OrdSet.mem_add.1 hmem).elim hne hvis
      have hfirst := (ihe hvis').insert_of_ne hne ⟨prev, OrdSet.singleton loc, pass⟩
      exact (hfirst.trans (henter.frame.of_add.insert hnot hnone _) (ihl hvis')).insert_of_ne hne _
  | done => exact .inl rfl
  | step hask hrest ih ih' => exact (ih hvis).trans hask.frame (ih' hvis)

end Heads

/-! ## The rank of a loop head -/

/-- How far a loop head is from a final state: whether it has a state, whether it is reachable, and
how many bounds can be dropped. -/
def headRank : Option Cell → ℕ ×ₗ ℕ
  | none => toLex (2, 0)
  | some cell =>
    if cell.isFinal then toLex (0, 0)
    else
      match cell.value with
      | .bottom => toLex (1, 0)
      | .env m => toLex (0, State.finiteBounds m + 1)

theorem headRank_of_isFinal {cell : Cell} (h : cell.isFinal = true) :
    headRank (some cell) = toLex (0, 0) := by
  rw [headRank, if_pos h]

theorem headRank_of_bottom {cell : Cell} (h : cell.isFinal = false) (hv : cell.value = .bottom) :
    headRank (some cell) = toLex (1, 0) := by
  rw [headRank, if_neg (by simp [h]), hv]

theorem headRank_of_env {cell : Cell} (h : cell.isFinal = false) {m : OrdMap String Interval}
    (hv : cell.value = .env m) : headRank (some cell) = toLex (0, State.finiteBounds m + 1) := by
  rw [headRank, if_neg (by simp [h]), hv]

/-- Widening lowers the rank, or nothing changes and the head does not wait for itself. -/
theorem headRank_widen {old new : Cell} {h : Loc} (hold : old.isFinal = false)
    (hnormal : old.value.Normal) (hnormal' : new.value.Normal)
    (hwiden : ∃ t, new.value = old.value.widen t)
    (hsame : new.value = old.value → h ∉ new.pending.toList) :
    headRank (some new) < headRank (some old) ∨
      (headRank (some new) = headRank (some old) ∧ new.isFinal = false ∧
        h ∉ new.pending.toList) := by
  obtain ⟨t, ht⟩ := hwiden
  cases hfinal : new.isFinal with
  | true =>
    refine .inl ?_
    rw [headRank_of_isFinal hfinal]
    cases hv : old.value with
    | bottom => rw [headRank_of_bottom hold hv, Prod.Lex.toLex_lt_toLex]; simp
    | env m => rw [headRank_of_env hold hv, Prod.Lex.toLex_lt_toLex]; simp
  | false =>
    cases hv : old.value with
    | bottom =>
      rw [headRank_of_bottom hold hv]
      cases hv' : new.value with
      | bottom => exact .inr ⟨headRank_of_bottom hfinal hv', rfl, hsame (hv'.trans hv.symm)⟩
      | env m => rw [headRank_of_env hfinal hv', Prod.Lex.toLex_lt_toLex]; simp
    | env m =>
      rw [hv] at ht hnormal
      rw [ht] at hnormal'
      obtain ⟨m', heq, hle, hkeep⟩ := State.widen_env hnormal hnormal'
      rw [headRank_of_env hold hv, headRank_of_env hfinal (ht.trans heq), Prod.Lex.toLex_lt_toLex]
      rcases Nat.lt_or_eq_of_le hle with hlt | hbounds
      · exact .inl (.inr ⟨rfl, Nat.succ_lt_succ hlt⟩)
      · refine .inr ⟨by rw [hbounds], rfl, hsame ?_⟩
        rw [ht, heq, hkeep hbounds, hv]

/-! ## Progress -/

/-- No two loop heads lead to each other: loops are neither nested nor do they overlap. -/
def FlowGraph.Unnested (f : FlowGraph) : Prop :=
  ∀ h ∈ f.loopHeads.toList, ∀ k ∈ f.loopHeads.toList,
    f.graph.Reaches h k → f.graph.Reaches k h → h = k

theorem FlowGraph.unnested_iff {f : FlowGraph} :
    f.Unnested ↔ ∀ h ∈ f.loopHeads.toList, ∀ k ∈ f.loopHeads.toList,
      k ∈ (f.graph.reachable h).toList → h ∈ (f.graph.reachable k).toList → h = k := by
  have hreach : ∀ h ∈ f.loopHeads.toList, ∀ k,
      k ∈ (f.graph.reachable h).toList ↔ f.graph.Reaches h k := fun h hh k =>
    Multigraph.mem_reachable.trans (and_iff_right (Skeleton.mem_nodes_of_mem_heads hh))
  refine forall₂_congr fun h hh => forall₂_congr fun k hk => ?_
  rw [hreach h hh, hreach k hk]

instance (f : FlowGraph) : Decidable f.Unnested := decidable_of_iff' _ FlowGraph.unnested_iff

namespace DemandGraph

variable {g g₁ g₂ : DemandGraph}

/-- How far the loop heads are from final states, taken together. -/
def rank (g : DemandGraph) : ℕ ×ₗ ℕ :=
  ∑ h ∈ g.skeleton.heads.toList.toFinset, headRank (g.cells.get? h)

theorem reaches_of_feeds {a b : Loc} (h : Relation.ReflTransGen g.skeleton.Feeds a b) :
    g.flow.graph.Reaches a b := by
  refine Relation.ReflTransGen.mono (fun x y hxy => ?_) _ _ h
  obtain ⟨stmt, hmem⟩ := hxy
  exact leads_of_mem_inputs hmem

section Pass

variable {loc : Loc} {a : Answer} {m : Memo} {log : List Loc}

/-- A pass lowers the rank of a loop head, or it leaves its cell alone, or it computes the head and
leaves it with the same rank, not final and not waiting for itself. -/
theorem headRank_run (hc : g.Coherent)
    (hrun : Run g.skeleton (g.pass + 1) g.visiting (.demand loc) g.cells a m.cells log)
    (hc' : (g.resume m).Coherent) {h : Loc} (hh : h ∈ g.skeleton.heads.toList) :
    headRank (m.cells.get? h) < headRank (g.cells.get? h) ∨
      (headRank (m.cells.get? h) = headRank (g.cells.get? h) ∧
        ∀ new, m.cells.get? h = some new → new.pass = g.pass + 1 →
          new.isFinal = false ∧ h ∉ new.pending.toList) := by
  rcases hrun.headStep hh (hc.notMem_visiting h) with heq | ⟨new, hget, -, hnone, hnew⟩
  · refine .inr ⟨by rw [heq], fun new hget hpass => ?_⟩
    -- the cell would be of an earlier pass
    rw [heq] at hget
    have := hc.pass_le h new hget
    omega
  · rw [hget]
    cases hold : g.cells.get? h with
    | none =>
      refine .inl ?_
      cases hfinal : new.isFinal with
      | true => rw [headRank_of_isFinal hfinal, headRank, Prod.Lex.toLex_lt_toLex]; simp
      | false =>
        cases hv : new.value with
        | bottom => rw [headRank_of_bottom hfinal hv, headRank, Prod.Lex.toLex_lt_toLex]; simp
        | env m => rw [headRank_of_env hfinal hv, headRank, Prod.Lex.toLex_lt_toLex]; simp
    | some old =>
      have hopen : old.isFinal = false := by
        rw [← Bool.not_eq_true]
        exact fun hfinal => hnone old ⟨hold, .inl hfinal⟩
      obtain ⟨hwiden, hsame⟩ := hnew old hold
      refine (headRank_widen hopen (hc.normal h old hold) (hc'.normal h new hget) hwiden
        hsame).imp id fun ⟨hrank, hfinal, hpending⟩ => ⟨hrank, fun new' hget' _ => ?_⟩
      cases hget'
      exact ⟨hfinal, hpending⟩

theorem rank_resume_le (hc : g.Coherent)
    (hrun : Run g.skeleton (g.pass + 1) g.visiting (.demand loc) g.cells a m.cells log)
    (hc' : (g.resume m).Coherent) : (g.resume m).rank ≤ g.rank := by
  refine Finset.sum_le_sum fun h hh => ?_
  rcases headRank_run hc hrun hc' (List.mem_toFinset.1 hh) with hlt | ⟨heq, -⟩
  · exact le_of_lt hlt
  · exact le_of_eq heq

/-- A location of the pass that is not final waits for a loop head of the pass that leads to it. -/
theorem exists_awaited (hc : g.Coherent)
    (hrun : Run g.skeleton (g.pass + 1) g.visiting (.demand loc) g.cells a m.cells log)
    {x : Loc} {cell : Cell} (hget : m.cells.get? x = some cell) (hpass : cell.pass = g.pass + 1)
    (hopen : cell.isFinal = false) :
    ∃ k ∈ cell.pending.toList, k ∈ g.skeleton.heads.toList ∧
      Cells.Fresh m.cells (g.pass + 1) k ∧ g.flow.graph.Reaches k x := by
  have hpending : ∃ k, k ∈ cell.pending.toList := by
    by_contra hnone
    rw [Cell.isFinal, OrdSet.isEmpty_iff.2 fun k hk => hnone ⟨k, hk⟩] at hopen
    cases hopen
  obtain ⟨k, hk⟩ := hpending
  have hawaits := hrun.tracked hc.visiting_subset hc.tracked x cell ⟨hget, .inr hpass⟩ k hk
  exact ⟨k, hk, hawaits.head, hawaits.active.resolve_left (hc.notMem_visiting k),
    reaches_of_feeds hawaits.reaches⟩

/-- A pass makes the demanded location stable, or it lowers the rank. -/
theorem rank_resume_lt (hc : g.Coherent) (hloops : g.flow.Unnested)
    (hrun : Run g.skeleton (g.pass + 1) g.visiting (.demand loc) g.cells a m.cells log)
    (hc' : (g.resume m).Coherent) {cell : Cell} (hget : m.cells.get? loc = some cell)
    (hpass : cell.pass = g.pass + 1) (hopen : cell.isFinal = false) :
    (g.resume m).rank < g.rank := by
  classical
  by_contra hstuck
  -- otherwise no loop head of the pass is final or waits for itself
  have hwaits : ∀ h ∈ g.skeleton.heads.toList, ∀ new, m.cells.get? h = some new →
      new.pass = g.pass + 1 → new.isFinal = false ∧ h ∉ new.pending.toList := by
    intro h hh
    refine ((headRank_run hc hrun hc' hh).resolve_left fun hlt => hstuck ?_).2
    refine Finset.sum_lt_sum (fun k hk => ?_) ⟨h, List.mem_toFinset.2 hh, hlt⟩
    rcases headRank_run hc hrun hc' (List.mem_toFinset.1 hk) with hk | ⟨hk, -⟩
    · exact le_of_lt hk
    · exact le_of_eq hk
  -- take one that no other one leads to
  let _ : Preorder Loc :=
    { le := g.flow.graph.Reaches
      le_refl := fun _ => .refl
      le_trans := fun _ _ _ => .trans }
  obtain ⟨k, -, hhead, hfresh, -⟩ := exists_awaited hc hrun hget hpass hopen
  let fresh := g.skeleton.heads.toList.toFinset.filter (Cells.Fresh m.cells (g.pass + 1))
  have hmem : ∀ x, x ∈ fresh ↔ x ∈ g.skeleton.heads.toList ∧ Cells.Fresh m.cells (g.pass + 1) x :=
    fun x => by rw [Finset.mem_filter, List.mem_toFinset]
  obtain ⟨h, hh, hfirst⟩ := Finset.exists_minimal (s := fresh) ⟨k, (hmem k).2 ⟨hhead, hfresh⟩⟩
  obtain ⟨hhead, new, hnew, hpass⟩ := (hmem h).1 hh
  obtain ⟨hopen, hself⟩ := hwaits h hhead new hnew hpass
  -- it waits for another one
  obtain ⟨k, hk, hkhead, hkfresh, hreaches⟩ := exists_awaited hc hrun hnew hpass hopen
  have hback : g.flow.graph.Reaches h k := hfirst ((hmem k).2 ⟨hkhead, hkfresh⟩) hreaches
  rw [g.built] at hhead hkhead
  exact hself (hloops h hhead k hkhead hback hreaches ▸ hk)

end Pass

/-! ## Demands -/

/-- What further demands keep: the program stays, stable nodes stay stable, the rank does not
grow. -/
structure Advances (g g' : DemandGraph) : Prop where
  coherent : g'.Coherent
  flow : g'.flow = g.flow
  rank_le : g'.rank ≤ g.rank
  stable : ∀ name, g.isStable name = true → g'.isStable name = true

theorem Advances.refl (hc : g.Coherent) : g.Advances g :=
  ⟨hc, rfl, le_refl _, fun _ h => h⟩

theorem Advances.trans (h : g.Advances g₁) (h' : g₁.Advances g₂) : g.Advances g₂ :=
  ⟨h'.coherent, h'.flow.trans h.flow, h'.rank_le.trans h.rank_le,
    fun name hs => h'.stable name (h.stable name hs)⟩

theorem Serves.advances {name : NodeName} {out : Outcome Resolved} (h : g.Serves name out)
    (hc : g.Coherent) : g.Advances out.graph := by
  have hc' := hc.of_serves h
  cases h with
  | refused hname => exact .refl hc
  | stmt hname hloc => exact .refl hc
  | run hname hrun hreports =>
    refine ⟨hc', rfl, rank_resume_le hc hrun hc', fun name hstable => ?_⟩
    cases name with
    | stmt src dst rank => exact hstable
    | state x =>
      obtain ⟨cell, hget, hfinal⟩ := isStable_iff.1 hstable
      have hkept := hrun.frame.usable x cell ⟨hget, .inl hfinal⟩
      exact isStable_iff.2 ⟨cell, hkept, hfinal⟩

/-- A demand for a location answers, and the answer is stable or the rank is lower. -/
theorem Serves.progress {loc : Loc} {out : Outcome Resolved} (h : g.Serves (.state loc) out)
    (hc : g.Coherent) (hloops : g.flow.Unnested) (hloc : loc ∈ g.flow.graph.nodes) :
    ∃ s, out.result = .ok (.state s) ∧ out.graph.cached? loc = some s ∧
      (out.graph.isStable (.state loc) = true ∨ out.graph.rank < g.rank) := by
  have hc' := hc.of_serves h
  obtain ⟨a, m, log, cell, hrun, ⟨hget, huse⟩, rfl⟩ := h.answered hc hloc
  refine ⟨cell.value, rfl, cached?_eq_some hget, ?_⟩
  cases hfinal : cell.isFinal with
  | true => exact .inl (isStable_iff.2 ⟨cell, hget, hfinal⟩)
  | false =>
    have hpass := huse.resolve_left (by simp [hfinal])
    exact .inr (rank_resume_lt hc hloops hrun hc' hget hpass hfinal)

theorem advances_get (hc : g.Coherent) (name : NodeName) : g.Advances (g.get name).graph :=
  (g.serves_get name).advances hc

theorem Advances.unnested (h : g.Advances g₁) (hloops : g.flow.Unnested) : g₁.flow.Unnested := by
  rwa [h.flow]

theorem settle_succ {name : NodeName} {resolved : Resolved} (h : (g.get name).result = .ok resolved)
    (fuel rounds : Nat) (events : Array Event) :
    settle name (fuel + 1) rounds events g =
      if (g.get name).graph.isStable name then
        ⟨.ok resolved, (g.get name).graph,
          (events ++ (g.get name).events).push (.settled name (rounds + 1))⟩
      else settle name fuel (rounds + 1) (events ++ (g.get name).events) (g.get name).graph := by
  rw [settle]
  simp only [h]

/-- One round, which appends to the history and to what happened. -/
theorem runRounds_succ {targets : List Loc} {events : Array Event}
    (h : (demandAll targets events g).result = .ok ()) (limited : Bool) (history : List Snapshot) :
    ∃ shots told, ∀ fuel, runRounds targets limited (fuel + 1) history events g =
      if ((demandAll targets events g).graph.snapshot targets).stable then
        ⟨.ok shots, (demandAll targets events g).graph, told.push (.roundsDone shots.length)⟩
      else runRounds targets limited fuel shots told (demandAll targets events g).graph := by
  let shot := (demandAll targets events g).graph.snapshot targets
  let told := (demandAll targets events g).events.push
    (.roundDone (history ++ [shot]).length targets.length shot.stable)
  refine ⟨history ++ [shot], told, fun fuel => ?_⟩
  rw [runRounds]
  simp only [h]
  rfl

/-- From some number of demands on, repeating the demand for a location ends with the same stable
state. -/
theorem settle_converges (hc : g.Coherent) (hloops : g.flow.Unnested) {loc : Loc}
    (hloc : loc ∈ g.flow.graph.nodes) (rounds : Nat) (events : Array Event) :
    ∃ n out s,
      (∀ fuel, n ≤ fuel → settle (.state loc) fuel rounds events g = out) ∧
      out.result = .ok (.state s) ∧ out.graph.isStable (.state loc) = true ∧
      out.graph.cached? loc = some s := by
  induction hr : g.rank using WellFoundedLT.induction generalizing g rounds events with
  | ind r ih =>
    have hadv := advances_get hc (.state loc)
    obtain ⟨s, hresult, hcached, hstep⟩ := (g.serves_get (.state loc)).progress hc hloops hloc
    cases hstable : (g.get (.state loc)).graph.isStable (.state loc) with
    | true =>
      refine ⟨1, ⟨.ok (.state s), (g.get (.state loc)).graph,
        (events ++ (g.get (.state loc)).events).push (.settled (.state loc) (rounds + 1))⟩, s,
        fun fuel hfuel => ?_, rfl, hstable, hcached⟩
      obtain ⟨fuel, rfl⟩ := Nat.exists_eq_add_of_le' hfuel
      rw [settle_succ hresult, if_pos hstable]
    | false =>
      have hlt := hstep.resolve_left (by simp [hstable])
      obtain ⟨n, out, s, hout, hrest⟩ := ih _ (hr ▸ hlt) hadv.coherent (hadv.unnested hloops)
        (by rwa [hadv.flow]) (rounds + 1) (events ++ (g.get (.state loc)).events) rfl
      refine ⟨n + 1, out, s, fun fuel hfuel => ?_, hrest⟩
      obtain ⟨fuel, rfl⟩ := Nat.exists_eq_add_of_le' hfuel
      rw [← Nat.add_assoc, settle_succ hresult, if_neg (by simp [hstable])]
      exact hout (fuel + n) (Nat.le_add_left n fuel)

/-- A round of demands ends.  It makes the targets stable, or it lowers the rank. -/
theorem demandAll_progress (hc : g.Coherent) (hloops : g.flow.Unnested) {targets : List Loc}
    (htargets : ∀ loc ∈ targets, loc ∈ g.flow.graph.nodes) (events : Array Event) :
    (demandAll targets events g).result = .ok () ∧
      g.Advances (demandAll targets events g).graph ∧
      ((∀ loc ∈ targets, (demandAll targets events g).graph.isStable (.state loc) = true) ∨
        (demandAll targets events g).graph.rank < g.rank) := by
  induction targets generalizing g events with
  | nil => exact ⟨rfl, .refl hc, .inl fun loc h => absurd h List.not_mem_nil⟩
  | cons loc rest ih =>
    obtain ⟨hloc, hrest⟩ := List.forall_mem_cons.1 htargets
    rw [demandAll]
    split
    · rename_i hstable
      obtain ⟨hok, hadv, hdone⟩ := ih hc hloops hrest events
      refine ⟨hok, hadv, hdone.imp (fun h => List.forall_mem_cons.2 ⟨?_, h⟩) id⟩
      exact hadv.stable _ hstable
    · obtain ⟨s, hresult, -, hstep⟩ := (g.serves_get (.state loc)).progress hc hloops hloc
      have hfirst := advances_get hc (.state loc)
      simp only [hresult]
      obtain ⟨hok, hadv, hdone⟩ := ih hfirst.coherent (hfirst.unnested hloops)
        (by rwa [hfirst.flow]) (events ++ (g.get (.state loc)).events)
      refine ⟨hok, hfirst.trans hadv, ?_⟩
      rcases hstep with hstable | hlt
      · rcases hdone with hdone | hlt
        · exact .inl (List.forall_mem_cons.2 ⟨hadv.stable _ hstable, hdone⟩)
        · exact .inr (hlt.trans_le hfirst.rank_le)
      · exact .inr (hadv.rank_le.trans_lt hlt)

theorem snapshot_stable_iff {targets : List Loc} :
    (g.snapshot targets).stable = true ↔ ∀ loc ∈ targets, g.isStable (.state loc) = true :=
  List.all_eq_true

/-- From some number of rounds on, demanding targets in rounds ends with the same stable states. -/
theorem runRounds_converges (hc : g.Coherent) (hloops : g.flow.Unnested) {targets : List Loc}
    (htargets : ∀ loc ∈ targets, loc ∈ g.flow.graph.nodes) (history : List Snapshot)
    (events : Array Event) :
    ∃ n out shots,
      (∀ fuel, n ≤ fuel → runRounds targets false fuel history events g = out) ∧
      out.result = .ok shots ∧ ∀ loc ∈ targets, out.graph.isStable (.state loc) = true := by
  induction hr : g.rank using WellFoundedLT.induction generalizing g history events with
  | ind r ih =>
    obtain ⟨hok, hadv, hstep⟩ := demandAll_progress hc hloops htargets events
    obtain ⟨shots, told, hround⟩ := runRounds_succ hok false history
    cases hstable : ((demandAll targets events g).graph.snapshot targets).stable with
    | true =>
      refine ⟨1, ⟨.ok shots, (demandAll targets events g).graph,
        told.push (.roundsDone shots.length)⟩, shots, fun fuel hfuel => ?_, rfl,
        snapshot_stable_iff.1 hstable⟩
      obtain ⟨fuel, rfl⟩ := Nat.exists_eq_add_of_le' hfuel
      rw [hround, if_pos hstable]
    | false =>
      have hlt := hstep.resolve_left fun h => by simp [snapshot_stable_iff.2 h] at hstable
      obtain ⟨n, out, shots', hout, hrest⟩ := ih _ (hr ▸ hlt) hadv.coherent (hadv.unnested hloops)
        (by rwa [hadv.flow]) shots told rfl
      refine ⟨n + 1, out, shots', fun fuel hfuel => ?_, hrest⟩
      obtain ⟨fuel, rfl⟩ := Nat.exists_eq_add_of_le' hfuel
      rw [← Nat.add_assoc, hround, if_neg (by simp [hstable])]
      exact hout (fuel + n) (Nat.le_add_left n fuel)

/-- If loops are not nested, repeated demands come to rest, whatever was demanded and edited before:
at one location, and in rounds at any locations.  From some patience on, more of it changes
nothing. -/
theorem unnested_loops_settle (hg : g.Reached) (hloops : g.flow.Unnested) :
    (∀ loc ∈ g.flow.graph.nodes, ∃ n out s,
      (∀ patience, n ≤ patience → g.getStable patience (.state loc) = out) ∧
      out.result = .ok (.state s) ∧ out.graph.isStable (.state loc) = true ∧
      out.graph.cached? loc = some s) ∧
    ∀ targets : List Loc, (∀ loc ∈ targets, loc ∈ g.flow.graph.nodes) → ∃ n out shots,
      (∀ patience, n ≤ patience → g.fixpoint patience targets none = out) ∧
      out.result = .ok shots ∧ ∀ loc ∈ targets, out.graph.isStable (.state loc) = true :=
  ⟨fun _ hloc => settle_converges hg.coherent hloops hloc 0 #[],
    fun _ htargets => runRounds_converges hg.coherent hloops htargets [] #[]⟩

/-- A program with two loops, one after the other. -/
def twoLoops : FlowGraph :=
  FlowGraph.empty
    |>.addEdge .entry (.id 0) (.assign "i" (Demo.number 2))
    |>.addEdge (.id 0) (.id 0) (.assign "i" (.binary .add (.var "i") (Demo.number 2)))
    |>.addEdge (.id 0) (.id 1) (Demo.guard .lt "i" 7)
    |>.addEdge (.id 1) (.id 2) (.assign "j" (.var "i"))
    |>.addEdge (.id 2) (.id 1) (.assign "i" (.binary .sub (.var "j") (Demo.number 2)))
    |>.addEdge (.id 1) .exit .skip

/-- Two loops in a row, after a demand at the end and with the first loop dropped. -/
theorem unnested_loops_settle_twoLoops :
    twoLoops.loopHeads.toList = [.id 0, .id 1] ∧ twoLoops.Unnested ∧
      ∃ n out s, (∀ patience, n ≤ patience →
        (((ofFlow twoLoops).get (.state .exit)).graph.dirty (.id 0)).getStable patience
          (.state .exit) = out) ∧
        out.result = .ok (.state s) ∧ out.graph.isStable (.state .exit) = true := by
  have hfacts : twoLoops.loopHeads.toList = [.id 0, .id 1] ∧ twoLoops.Unnested ∧
      Loc.exit ∈ twoLoops.graph.nodes := by
    decide +kernel
  obtain ⟨hheads, hloops, hexit⟩ := hfacts
  have hflow : (((ofFlow twoLoops).get (.state .exit)).graph.dirty (.id 0)).flow = twoLoops :=
    (serves_get _ _).flow
  obtain ⟨n, out, s, hout, hresult, hstable, -⟩ :=
    (unnested_loops_settle (.dirty (.id 0) (.get (.state .exit) (.ofFlow twoLoops)))
      (by rwa [hflow])).1 .exit (by rwa [hflow])
  exact ⟨hheads, hloops, n, out, s, hout, hresult, hstable⟩

end DemandGraph

end Demanded
