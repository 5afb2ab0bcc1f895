import Demanded.Proofs.Relabelling
import Demanded.Proofs.Traces

/-!
# Analyses with a focus

The labels `entry` and `exit` have their locations before any function is looked at, but the flow
graph has only locations that a function mentions.  So an analysis finds a location for each of
these two labels, also where no function mentions it, and then the location is not in the graph.

The main result, `SourceProgram.focus_fails_iff`, says when an analysis fails: with an unknown label
for a reason that lies in the program, with one of these two labels where no function mentions it
for a reason that lies in the graph, and never otherwise.
-/

namespace Demanded

/-! ## Rounds -/

namespace DemandGraph

/-- Rounds fail in the first round at a target that the program does not have, or for want of
patience. -/
theorem fixpoint_cases {g : DemandGraph} (hg : g.Reached) (patience : Nat) (targets : List Loc)
    (limit : Option Nat) :
    (∃ loc ∈ targets, loc ∉ g.flow.graph.nodes ∧ 0 < limit.getD patience ∧
      (g.fixpoint patience targets limit).result = .error (.noSuchNode (.state loc))) ∨
    ((0 < limit.getD patience → ∀ loc ∈ targets, loc ∈ g.flow.graph.nodes) ∧
      ((∃ shots, (g.fixpoint patience targets limit).result = .ok shots) ∨
        limit = none ∧
          ∃ name, (g.fixpoint patience targets limit).result = .error (.unsettled name))) := by
  have hresult := demandAll_result hg targets #[]
  cases hfind : targets.find? fun loc => !g.flow.contains loc with
  | none =>
    have htargets : ∀ loc ∈ targets, loc ∈ g.flow.graph.nodes := fun loc hloc => by
      have hin := List.find?_eq_none.1 hfind loc hloc
      exact FlowGraph.contains_iff.1 (by simpa using hin)
    refine .inr ⟨fun _ => htargets, ?_⟩
    have hrounds := (runRounds_eq hg htargets limit.isSome (limit.getD patience) [] #[]).2
    rw [fixpoint, hrounds]
    cases limit with
    | some n => exact .inl ⟨_, rfl⟩
    | none =>
      split
      · exact .inl ⟨_, rfl⟩
      · exact .inr ⟨rfl, _, rfl⟩
  | some loc =>
    rw [hfind] at hresult
    cases hfuel : limit.getD patience with
    | zero =>
      refine .inr ⟨fun h => absurd h (Nat.lt_irrefl 0), ?_⟩
      rw [fixpoint, hfuel, runRounds]
      cases limit with
      | some n => exact .inl ⟨_, rfl⟩
      | none => exact .inr ⟨rfl, _, rfl⟩
    | succ fuel =>
      refine .inl ⟨loc, List.mem_of_find?_eq_some hfind, fun hin => ?_, Nat.succ_pos fuel, ?_⟩
      · have hout := List.find?_some hfind
        rw [FlowGraph.contains_iff.2 hin] at hout
        cases hout
      · rw [fixpoint, hfuel, runRounds]
        simp only [hresult]

end DemandGraph

/-! ## Targets -/

namespace Program

/-- Without a focus all locations are targets, otherwise those of the labels are, if all of them are
known. -/
theorem targets_cases (program : Program) (focus : List String) :
    (∃ l ∈ focus, program.locOf? l = none ∧
      program.targets focus = .error (.unknownLabel l)) ∨
    ∃ locs, program.targets focus = .ok locs ∧ (∀ l ∈ focus, program.locOf? l ≠ none) ∧
      ∀ loc, loc ∉ program.flow.graph.nodes →
        (loc ∈ locs ↔ ∃ l ∈ focus, program.locOf? l = some loc) := by
  unfold targets
  cases focus with
  | nil =>
    refine .inr ⟨_, rfl, fun l h => absurd h List.not_mem_nil, fun loc hout => ?_⟩
    exact iff_of_false (fun hmem => hout (Multigraph.mem_sortedNodes.1 hmem))
      fun ⟨l, hl, _⟩ => absurd hl List.not_mem_nil
  | cons first rest =>
    rcases mapM_locOf program (first :: rest) with hunknown | ⟨locs, hok, hall⟩
    · exact .inl hunknown
    · refine .inr ⟨locs, hok, fun l hl hnone => ?_, fun loc _ => ?_⟩
      · obtain ⟨loc, -, hloc⟩ := exists_mem_of_forall₂ hall.flip hl
        cases hnone.symm.trans hloc
      · have hmem : (∃ l ∈ first :: rest, program.locOf? l = some loc) ↔ ∃ x ∈ locs, x = loc :=
          exists_mem_congr_of_forall₂ hall fun l x hlx => by rw [hlx, Option.some.injEq]
        rw [hmem, exists_eq_right]

/-- What an analysis comes to, with the labels of its focus. -/
theorem report_cases (program : Program) (patience : Nat) (request : Request) :
    (∃ l ∈ request.focus, program.locOf? l = none ∧
      (program.report patience request).result = .error (.unknownLabel l)) ∨
    ((∀ l ∈ request.focus, program.locOf? l ≠ none) ∧
      ((∃ l ∈ request.focus, ∃ loc, program.locOf? l = some loc ∧
          loc ∉ program.flow.graph.nodes ∧ 0 < request.limit.getD patience ∧
          (program.report patience request).result = .error (.noSuchNode (.state loc))) ∨
        ((0 < request.limit.getD patience → ∀ l ∈ request.focus, ∀ loc,
            program.locOf? l = some loc → loc ∈ program.flow.graph.nodes) ∧
          ((∃ r, (program.report patience request).result = .ok r) ∨ request.limit = none ∧
            ∃ name, (program.report patience request).result = .error (.unsettled name))))) := by
  rcases program.targets_cases request.focus with
    ⟨l, hl, hnone, herror⟩ | ⟨locs, hok, hknown, hlocs⟩
  · refine .inl ⟨l, hl, hnone, ?_⟩
    rw [report, herror]
  · refine .inr ⟨hknown, ?_⟩
    simp only [report, hok]
    rcases DemandGraph.fixpoint_cases (.ofFlow program.flow) patience locs request.limit with
      ⟨loc, hmem, hout, hfuel, herror⟩ | ⟨hin, ⟨shots, hshots⟩ | ⟨hlimit, name, herror⟩⟩
    · obtain ⟨l, hl, hloc⟩ := (hlocs loc hout).1 hmem
      refine .inl ⟨l, hl, loc, hloc, hout, hfuel, ?_⟩
      rw [herror]
    all_goals
      have hall : 0 < request.limit.getD patience → ∀ l ∈ request.focus, ∀ loc,
          program.locOf? l = some loc → loc ∈ program.flow.graph.nodes := by
        intro hfuel l hl loc hloc
        by_contra hout
        exact hout (hin hfuel loc ((hlocs loc hout).2 ⟨l, hl, hloc⟩))
    · refine .inr ⟨hall, .inl ?_⟩
      rw [hshots]
      exact ⟨_, rfl⟩
    · refine .inr ⟨hall, .inr ⟨hlimit, name, ?_⟩⟩
      rw [herror]

/-- An analysis fails for a reason that lies in the program exactly if a label is unknown. -/
theorem report_program_iff (program : Program) (patience : Nat) (request : Request) :
    (∃ e, (program.report patience request).result = .error e ∧ e.kind = .program) ↔
      ∃ l ∈ request.focus, program.locOf? l = none := by
  rcases program.report_cases patience request with
    ⟨l, hl, hnone, herror⟩ | ⟨hall, ⟨-, -, loc, -, -, -, herror⟩ | ⟨-, ⟨r, hr⟩ | ⟨-, name, herror⟩⟩⟩
  · exact iff_of_true ⟨_, herror, rfl⟩ ⟨l, hl, hnone⟩
  all_goals
    refine iff_of_false ?_ fun ⟨l', hl', hnone⟩ => hall l' hl' hnone
    rintro ⟨e, he, hkind⟩
  · cases herror.symm.trans he
    cases hkind
  · cases hr.symm.trans he
  · cases herror.symm.trans he
    cases hkind

/-- It fails for a reason that lies in the graph exactly if all labels are known, one of them has a
location which is not in the graph, and there is a round at all. -/
theorem report_invariant_iff (program : Program) (patience : Nat) (request : Request) :
    (∃ e, (program.report patience request).result = .error e ∧ e.kind = .invariant) ↔
      0 < request.limit.getD patience ∧ (∀ l ∈ request.focus, program.locOf? l ≠ none) ∧
        ∃ l ∈ request.focus, ∃ loc, program.locOf? l = some loc ∧
          loc ∉ program.flow.graph.nodes := by
  rcases program.report_cases patience request with
    ⟨l, hl, hnone, herror⟩ | ⟨hall, ⟨l, hl, loc, hloc, hout, hfuel, herror⟩ | ⟨hin, hrest⟩⟩
  · refine iff_of_false ?_ fun ⟨_, hall, _⟩ => hall l hl hnone
    rintro ⟨e, he, hkind⟩
    cases herror.symm.trans he
    cases hkind
  · exact iff_of_true ⟨_, herror, rfl⟩ ⟨hfuel, hall, l, hl, loc, hloc, hout⟩
  · refine iff_of_false ?_ fun ⟨hfuel, _, l, hl, loc, hloc, hout⟩ => hout (hin hfuel l hl loc hloc)
    rintro ⟨e, he, hkind⟩
    rcases hrest with ⟨r, hr⟩ | ⟨-, name, herror⟩
    · cases hr.symm.trans he
    · cases herror.symm.trans he
      cases hkind

theorem kind_of_report {program : Program} {patience : Nat} {request : Request} {e : Failure}
    (h : (program.report patience request).result = .error e) :
    e.kind = .program ∨ e.kind = .invariant ∨ e.kind = .abandoned ∧ request.limit = none := by
  rcases program.report_cases patience request with
    ⟨l, -, -, herror⟩ | ⟨-, ⟨l, -, loc, -, -, -, herror⟩ | ⟨-, ⟨r, hr⟩ | ⟨hlimit, name, herror⟩⟩⟩
  · cases herror.symm.trans h
    exact .inl rfl
  · cases herror.symm.trans h
    exact .inr (.inl rfl)
  · cases hr.symm.trans h
  · cases herror.symm.trans h
    exact .inr (.inr ⟨rfl, hlimit⟩)

end Program

/-! ## Loaded programs -/

/-- A label names a location of the flow graph if some function mentions it. -/
theorem Loading.Holds.mem_nodes_iff {s : Loading} {fs : List SourceFunction} (hs : s.Holds fs)
    {l : String} {loc : Loc} (hloc : s.labels.get? l = some loc) :
    loc ∈ s.flow.graph.nodes ↔ l ∈ mentions fs := by
  rw [hs.nodes]
  constructor
  · rintro ⟨l', hl', hloc'⟩
    rwa [hs.numbers.injective hloc hloc']
  · exact fun hl => ⟨l, hl, hloc⟩

/-- What is loaded does not depend on the supply that loading starts with. -/
theorem SourceProgram.load_eq_of_ok {source : SourceProgram} {supply : LocSupply}
    {program : Program} (h : (source.load supply).result = .ok program) (supply' : LocSupply) :
    (source.load supply').result = .ok program := by
  obtain ⟨s, hrun, -⟩ := loads_of_load h
  exact congrArg Prod.fst (loads_loadProgram.2 (loads_loadProgram.1 hrun) :
    Loads (loadProgram source) { Loading.start with supply := supply' } program s)

/-- An analysis of a file that stores a program is one of the program. -/
theorem Request.analyze_eq_report {request : Request} {patience : Nat} {text : String}
    {source : SourceProgram} {supply : LocSupply} {program : Program}
    (htext : SourceProgram.decode? text = some source)
    (hload : (source.load supply).result = .ok program) :
    (request.analyze patience (.ok text)).result = (program.report patience request).result := by
  have hloaded : (loadText text .start).result = .ok program := by
    rw [loadText, htext]
    exact SourceProgram.load_eq_of_ok hload .start
  simp only [analyze, hloaded]

/-- The labels of a loaded program are those that a function mentions, and `entry` and `exit`.  A
label names a location of the flow graph exactly if a function mentions it.  An analysis fails for a
reason that lies in the program exactly if a label of its focus is unknown.  It fails for a reason
that lies in the graph exactly if all labels of its focus are known, one of them is `entry` or
`exit` and no function mentions it, and there is a round at all.  It fails for no other reason,
unless there is no limit and the rounds do not come to rest. -/
theorem SourceProgram.focus_fails_iff {source : SourceProgram} {supply : LocSupply}
    {program : Program} (hload : (source.load supply).result = .ok program) :
    (∀ label, (∃ loc, program.locOf? label = some loc) ↔
      label ∈ mentions source.functions ∨ label = "entry" ∨ label = "exit") ∧
    (∀ label loc, program.locOf? label = some loc →
      (program.flow.contains loc = true ↔ label ∈ mentions source.functions)) ∧
    ∀ patience request,
      (∀ text, SourceProgram.decode? text = some source →
        (request.analyze patience (.ok text)).result =
          (program.report patience request).result) ∧
      ((∃ e, (program.report patience request).result = .error e ∧ e.kind = .program) ↔
        ∃ label ∈ request.focus, program.locOf? label = none) ∧
      ((∃ e, (program.report patience request).result = .error e ∧ e.kind = .invariant) ↔
        0 < request.limit.getD patience ∧
        (∀ label ∈ request.focus, program.locOf? label ≠ none) ∧
        ∃ label ∈ request.focus, (label = "entry" ∨ label = "exit") ∧
          label ∉ mentions source.functions) ∧
      ∀ e, (program.report patience request).result = .error e →
        e.kind = .program ∨ e.kind = .invariant ∨ e.kind = .abandoned ∧ request.limit = none := by
  obtain ⟨s, hs, hprogram, -⟩ := holds_of_load hload
  have hmentioned : ∀ label loc, program.locOf? label = some loc →
      (loc ∈ program.flow.graph.nodes ↔ label ∈ mentions source.functions) := by
    subst hprogram
    exact fun label loc hloc => hs.mem_nodes_iff hloc
  have hknown : ∀ label, (∃ loc, program.locOf? label = some loc) ↔
      label ∈ mentions source.functions ∨ label = "entry" ∨ label = "exit" := by
    subst hprogram
    exact fun label => hs.numbers.exists_iff
  -- only the two labels that are there from the start can have a location outside the graph
  have houtside : ∀ label, (∃ loc, program.locOf? label = some loc ∧
      loc ∉ program.flow.graph.nodes) ↔
        (label = "entry" ∨ label = "exit") ∧ label ∉ mentions source.functions := by
    intro label
    constructor
    · rintro ⟨loc, hloc, hout⟩
      have hunmentioned := mt (hmentioned label loc hloc).2 hout
      exact ⟨((hknown label).1 ⟨loc, hloc⟩).resolve_left hunmentioned, hunmentioned⟩
    · rintro ⟨hsentinel, hunmentioned⟩
      obtain ⟨loc, hloc⟩ := (hknown label).2 (.inr hsentinel)
      exact ⟨loc, hloc, mt (hmentioned label loc hloc).1 hunmentioned⟩
  refine ⟨hknown, fun label loc hloc => FlowGraph.contains_iff.trans (hmentioned label loc hloc),
    fun patience request => ⟨fun text htext => Request.analyze_eq_report htext hload,
      program.report_program_iff patience request, ?_, fun e => Program.kind_of_report⟩⟩
  rw [program.report_invariant_iff]
  simp only [houtside]

/-- A program whose only function has ends of its own. -/
def ownEnds : SourceProgram :=
  ⟨[{ name := "main"
      formals := []
      entry := "start"
      exit := "stop"
      edges := [⟨"start", "stop", .skip⟩] }]⟩

theorem exists_load_ownEnds : ∃ program, (ownEnds.load .start).result = .ok program := by
  have hsome : (ownEnds.load .start).result.toOption.isSome = true := by decide +kernel
  obtain ⟨program, hload⟩ := Option.isSome_iff_exists.1 hsome
  exact ⟨program, eq_ok_of_toOption hload⟩

/-- An unknown label is a fault of the program.  The labels of the function are fine, and so would
`exit` be if the function left there. -/
theorem SourceProgram.focus_fails_iff_ownEnds :
    ∃ program, (ownEnds.load .start).result = .ok program ∧
      (∃ e, (program.report 9 ⟨"", ["stop", "nowhere"], none⟩).result = .error e ∧
        e.kind = .program) ∧
      (∃ e, (program.report 9 ⟨"", ["stop", "exit"], none⟩).result = .error e ∧
        e.kind = .invariant) ∧
      ∀ e, (program.report 9 ⟨"", ["stop", "start"], some 3⟩).result ≠ .error e := by
  obtain ⟨program, hload⟩ := exists_load_ownEnds
  obtain ⟨hknown, -, hfails⟩ := focus_fails_iff hload
  have hlabels : mentions ownEnds.functions = ["start", "stop", "start", "stop"] := rfl
  rw [hlabels] at hknown hfails
  have hstop : program.locOf? "stop" ≠ none :=
    Option.ne_none_iff_exists'.2 ((hknown "stop").2 (by decide))
  have hstart : program.locOf? "start" ≠ none :=
    Option.ne_none_iff_exists'.2 ((hknown "start").2 (by decide))
  have hexit : program.locOf? "exit" ≠ none :=
    Option.ne_none_iff_exists'.2 ((hknown "exit").2 (by decide))
  have hnowhere : program.locOf? "nowhere" = none := by
    by_contra hsome
    exact absurd ((hknown "nowhere").1 (Option.ne_none_iff_exists'.1 hsome)) (by decide)
  refine ⟨program, hload, (hfails 9 _).2.1.2 ⟨"nowhere", by decide, hnowhere⟩,
    (hfails 9 _).2.2.1.2 ⟨by decide, ?_, "exit", by decide, by decide, by decide⟩, ?_⟩
  · exact List.forall_mem_cons.2 ⟨hstop, List.forall_mem_singleton.2 hexit⟩
  · intro e he
    obtain ⟨-, hprogram, hgraph, honly⟩ := hfails 9 ⟨"", ["stop", "start"], some 3⟩
    rcases honly e he with hkind | hkind | ⟨-, hlimit⟩
    · obtain ⟨l, hl, hnone⟩ := hprogram.1 ⟨e, he, hkind⟩
      rcases List.mem_pair.1 hl with rfl | rfl
      · exact hstop hnone
      · exact hstart hnone
    · obtain ⟨-, -, l, hl, hsentinel, -⟩ := hgraph.1 ⟨e, he, hkind⟩
      rcases List.mem_pair.1 hl with rfl | rfl <;> exact absurd hsentinel (by decide)
    · cases hlimit

/-- The label `entry` has a location which is not in the flow graph, and an analysis with a focus
there fails as if it had been asked for a node by a wrong name. -/
theorem SourceProgram.ownEnds_without_entry :
    ∃ program, (ownEnds.load .start).result = .ok program ∧
      program.locOf? "entry" = some .entry ∧ program.flow.contains .entry = false ∧
      (program.report DemandGraph.ample ⟨"", ["entry"], none⟩).result =
        .error (.noSuchNode (.state .entry)) := by
  have hrun : (ownEnds.load .start).result.toOption.any (fun program =>
      program.locOf? "entry" = some .entry && !program.flow.contains .entry) = true := by
    decide +kernel
  obtain ⟨program, hload, hfacts⟩ := (Option.any_eq_true _ _).1 hrun
  rw [Bool.and_eq_true, decide_eq_true_iff, Bool.not_eq_true'] at hfacts
  obtain ⟨hentry, hout⟩ := hfacts
  have hout' : Loc.entry ∉ program.flow.graph.nodes := fun h => by
    rw [FlowGraph.contains_iff.2 h] at hout
    cases hout
  refine ⟨program, eq_ok_of_toOption hload, hentry, hout, ?_⟩
  rcases program.report_cases DemandGraph.ample ⟨"", ["entry"], none⟩ with
    ⟨l, hl, hnone, -⟩ | ⟨-, ⟨l, hl, loc, hloc, -, -, herror⟩ | ⟨hin, -⟩⟩
  · rw [List.mem_singleton.1 hl, hentry] at hnone
    cases hnone
  · rw [List.mem_singleton.1 hl, hentry] at hloc
    cases hloc
    exact herror
  · exact absurd (hin (by decide) "entry" (List.mem_singleton.2 rfl) .entry hentry) hout'

end Demanded
