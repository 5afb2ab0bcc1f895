import Mathlib.Data.List.Nodup
import Demanded.Analysis
import Demanded.Proofs.Mentions

/-!
# Labels and locations of a loaded program

In a loaded program a label belongs to one location and a location to one label, so that nothing is
lost where answers are told by label: every state of the last round of an analysis is found again
under the label of its location.
-/

namespace Demanded

/-! ## From locations back to labels -/

namespace Numbers

variable {labels : OrdMap String Loc} {mentioned : List String} {l : String} {loc : Loc}

/-- The search for the label of a location finds it. -/
theorem labelOf?_eq (h : Numbers labels mentioned) (hloc : labels.get? l = some loc) :
    Program.labelOf? labels loc = some l := by
  have hentry : (l, loc) ∈ labels.entries := OrdMap.mem_entries_iff.2 hloc
  unfold Program.labelOf?
  cases hfound : labels.entries.find? fun e => decide (e.2 = loc) with
  | none =>
    have hno := List.find?_eq_none.1 hfound (l, loc) hentry
    simp at hno
  | some e =>
    have hsnd : e.2 = loc := by simpa using List.find?_some hfound
    have hfst : labels.get? e.1 = some loc :=
      hsnd ▸ OrdMap.mem_entries_iff.1 (List.mem_of_find?_eq_some hfound)
    exact congrArg some (h.injective hfst hloc)

theorem describe_eq (h : Numbers labels mentioned) (hloc : labels.get? l = some loc) :
    Program.describe labels loc = l := by
  rw [Program.describe, h.labelOf?_eq hloc]
  rfl

end Numbers

/-- A map that is built from bindings with different keys has these bindings. -/
theorem OrdMap.entries_ofList_perm {κ ν : Type} [Ord κ] [Std.TransOrd κ] [Std.LawfulEqOrd κ]
    {bindings : List (κ × ν)} (h : (bindings.map Prod.fst).Nodup) :
    (OrdMap.ofList bindings).entries.Perm bindings := by
  have hentries : (OrdMap.ofList bindings).entries.Nodup :=
    List.Nodup.of_map Prod.fst (OrdMap.nodup_keys (OrdMap.ofList bindings))
  refine (List.perm_ext_iff_of_nodup hentries (List.Nodup.of_map _ h)).2 fun e => ?_
  rw [← OrdMap.get?_ofList_eq_some_iff h, ← OrdMap.mem_entries_iff]

/-! ## What an analysis tells -/

namespace DemandGraph

variable {targets : List Loc}

theorem mem_targets_of_mem_snapshot {g : DemandGraph} {e : Loc × State}
    (h : e ∈ (g.snapshot targets).states.entries) : e.1 ∈ targets := by
  have hget : (g.snapshot targets).states.get? e.1 = some e.2 := OrdMap.mem_entries_iff.1 h
  by_contra hno
  rw [snapshot, OrdMap.get?_ofList_of_notMem] at hget
  · cases hget
  · simp only [List.mem_map, List.mem_filterMap, Option.map_eq_some_iff]
    rintro ⟨_, ⟨loc, hloc, s, -, rfl⟩, rfl⟩
    exact hno hloc

/-- Every round is a snapshot of the targets. -/
theorem exists_snapshot_of_runRounds {limited : Bool} {fuel : Nat} {history trace : List Snapshot}
    {events : Array Event} {g : DemandGraph}
    (hhistory : ∀ shot ∈ history, ∃ g : DemandGraph, shot = g.snapshot targets)
    (h : (runRounds targets limited fuel history events g).result = .ok trace) :
    ∀ shot ∈ trace, ∃ g : DemandGraph, shot = g.snapshot targets := by
  induction fuel generalizing history events g with
  | zero =>
    rw [runRounds] at h
    split at h
    · cases h
      exact hhistory
    · cases h
  | succ fuel ih =>
    rw [runRounds] at h
    split at h
    · cases h
    · have hround := List.forall_mem_append.2
        ⟨hhistory, List.forall_mem_singleton.2 ⟨(demandAll targets events g).graph, rfl⟩⟩
      dsimp only at h
      split at h
      · cases h
        exact hround
      · exact ih hround h

end DemandGraph

namespace Program

variable {program : Program}

theorem locOf_eq_ok_iff {l : String} {loc : Loc} :
    program.locOf l = .ok loc ↔ program.locOf? l = some loc := by
  unfold locOf
  split <;> simp [*]

/-- Labels are looked up one after the other, until one is unknown. -/
theorem mapM_locOf (program : Program) (focus : List String) :
    (∃ l ∈ focus, program.locOf? l = none ∧
      focus.mapM program.locOf = .error (.unknownLabel l)) ∨
    ∃ locs, focus.mapM program.locOf = .ok locs ∧
      List.Forall₂ (fun l loc => program.locOf? l = some loc) focus locs := by
  induction focus with
  | nil => exact .inr ⟨[], rfl, .nil⟩
  | cons l rest ih =>
    rw [List.mapM_cons]
    cases hl : program.locOf? l with
    | none =>
      refine .inl ⟨l, List.mem_cons_self, hl, ?_⟩
      rw [locOf, hl]
      rfl
    | some loc =>
      rw [locOf_eq_ok_iff.2 hl]
      rcases ih with ⟨l', hmem, hnone, herror⟩ | ⟨locs, hok, hall⟩
      · refine .inl ⟨l', List.mem_cons_of_mem _ hmem, hnone, ?_⟩
        rw [herror]
        rfl
      · refine .inr ⟨loc :: locs, ?_, .cons hl hall⟩
        rw [hok]
        rfl

theorem exists_label_of_mapM {focus : List String} {targets : List Loc}
    (h : focus.mapM program.locOf = .ok targets) {loc : Loc} (hloc : loc ∈ targets) :
    ∃ l, program.locOf? l = some loc := by
  rcases mapM_locOf program focus with ⟨_, -, -, herror⟩ | ⟨locs, hok, hall⟩
  · cases herror.symm.trans h
  · cases hok.symm.trans h
    obtain ⟨l, -, hl⟩ := exists_mem_of_forall₂ hall hloc
    exact ⟨l, hl⟩

/-- What an analysis found is about the program, and every location of a round is a target. -/
theorem report_ok {patience : Nat} {request : Request} {r : Report}
    (h : (program.report patience request).result = .ok r) :
    r.program = program ∧ ∃ targets, program.targets request.focus = .ok targets ∧
      ∀ shot ∈ r.trace, ∀ e ∈ shot.states.entries, e.1 ∈ targets := by
  unfold report at h
  split at h
  · cases h
  · rename_i targets htargets
    dsimp only at h
    split at h
    · cases h
    · rename_i trace htrace
      cases h
      refine ⟨rfl, targets, htargets, fun shot hshot e he => ?_⟩
      have hshots := DemandGraph.exists_snapshot_of_runRounds
        (fun _ hno => absurd hno List.not_mem_nil) htrace
      obtain ⟨g, rfl⟩ := hshots shot hshot
      exact DemandGraph.mem_targets_of_mem_snapshot he

/-- The targets of an analysis have labels. -/
theorem exists_label_of_targets {s : Loading} {fs : List SourceFunction} (hs : s.Holds fs)
    {focus : List String} {locs : List Loc}
    (h : Program.targets ⟨s.flow, s.labels⟩ focus = .ok locs) {loc : Loc} (hloc : loc ∈ locs) :
    ∃ l, s.labels.get? l = some loc := by
  unfold Program.targets at h
  split at h
  · cases h
    obtain ⟨l, -, hl⟩ := (hs.nodes loc).1 (Multigraph.mem_sortedNodes.1 hloc)
    exact ⟨l, hl⟩
  · exact exists_label_of_mapM h hloc

section Reports

variable {s : Loading} {fs : List SourceFunction} {patience : Nat} {request : Request} {r : Report}
  {last : Snapshot}

/-- A location of the last round is told by its label. -/
theorem get?_describe_of_report (hs : s.Holds fs)
    (hr : (report ⟨s.flow, s.labels⟩ patience request).result = .ok r)
    (hlast : r.trace.getLast? = some last) {e : Loc × State} (he : e ∈ last.states.entries) :
    s.labels.get? (describe s.labels e.1) = some e.1 := by
  obtain ⟨-, locs, hlocs, hshots⟩ := report_ok hr
  have hmem := hshots last (List.mem_of_getLast? hlast) e he
  obtain ⟨l, hl⟩ := exists_label_of_targets hs hlocs hmem
  rwa [hs.numbers.describe_eq hl]

/-- No two states of the last round are told by one label. -/
theorem nodup_describe_of_report (hs : s.Holds fs)
    (hr : (report ⟨s.flow, s.labels⟩ patience request).result = .ok r)
    (hlast : r.trace.getLast? = some last) :
    (last.states.keys.map (describe s.labels)).Nodup := by
  refine (OrdMap.nodup_keys last.states).map_on fun x hx y hy hxy => ?_
  obtain ⟨e, he, rfl⟩ := List.mem_map.1 hx
  obtain ⟨e', he', rfl⟩ := List.mem_map.1 hy
  have hsame := get?_describe_of_report hs hr hlast he
  rw [hxy, get?_describe_of_report hs hr hlast he'] at hsame
  exact (Option.some.inj hsame).symm

theorem entries_states_perm (hs : s.Holds fs)
    (hr : (report ⟨s.flow, s.labels⟩ patience request).result = .ok r)
    (hlast : r.trace.getLast? = some last) :
    r.states.entries.Perm (last.states.entries.map fun e => (describe s.labels e.1, e.2)) := by
  rw [Report.states, hlast, (report_ok hr).1]
  refine OrdMap.entries_ofList_perm ?_
  simpa [OrdMap.keys, Function.comp_def] using nodup_describe_of_report hs hr hlast

end Reports

end Program

/-- A label of a loaded program has one location and a location one label.  The labels `entry` and
`exit` have the sentinels, the other mentioned labels are numbered without gaps in the order in
which they are first mentioned, and so many locations were handed out.  The edges are those of the
functions in order, between the locations of their labels.  What an analysis tells by label are the
last states by location, each of them once. -/
theorem SourceProgram.load_faithful {source : SourceProgram} {supply : LocSupply}
    {program : Program} (hload : (source.load supply).result = .ok program) :
    (∀ a b loc, program.locOf? a = some loc → program.locOf? b = some loc → a = b) ∧
      (∀ l loc, program.locOf? l = some loc → Program.labelOf? program.labels loc = some l) ∧
      Numbers program.labels (mentions source.functions) ∧
      (source.load supply).supply.next = (numbered (mentions source.functions)).length ∧
      List.Forall₂ (SourceEdge.PlacedAs program.labels)
        (source.functions.flatMap SourceFunction.edges) program.flow.edges ∧
      ∀ patience request r, (program.report patience request).result = .ok r →
        ∀ last, r.trace.getLast? = some last →
          r.states.entries.Perm
              (last.states.entries.map fun e => (Program.describe program.labels e.1, e.2)) ∧
            ∀ e ∈ last.states.entries,
              program.locOf? (Program.describe program.labels e.1) = some e.1 := by
  obtain ⟨s, hs, rfl, hsupply⟩ := holds_of_load hload
  refine ⟨fun a b loc => hs.numbers.injective, fun l loc => hs.numbers.labelOf?_eq, hs.numbers,
    ?_, hs.edges, fun patience request r hr last hlast => ?_⟩
  · rw [hsupply, hs.claimed.supply, map_fst_claims]
  · exact ⟨Program.entries_states_perm hs hr hlast,
      fun e he => Program.get?_describe_of_report hs hr hlast he⟩

/-- A program of two functions, one of them with a loop. -/
def twoFunctions : SourceProgram :=
  ⟨[{ name := "main"
      formals := []
      entry := "entry"
      exit := "exit"
      edges := [⟨"entry", "again", .skip⟩, ⟨"again", "again", .skip⟩, ⟨"again", "exit", .skip⟩] },
    { name := "helper"
      formals := ["n"]
      entry := "in"
      exit := "out"
      edges := [⟨"in", "half", .skip⟩, ⟨"half", "out", .skip⟩] }]⟩

/-- The ends of the second function are numbered before the label between them, and a label that is
asked for twice is told once. -/
theorem SourceProgram.load_faithful_twoFunctions :
    ∃ program, (twoFunctions.load .start).result = .ok program ∧
      program.locOf? "half" = some (.id 3) ∧
      Program.labelOf? program.labels (.id 2) = some "out" ∧
      (twoFunctions.load .start).supply.next = 4 ∧
      ∃ r, (program.report 9 ⟨"", ["half", "again", "half"], none⟩).result = .ok r ∧
        r.states.size = 2 := by
  have hrun : ((twoFunctions.load .start).result.toOption.bind fun program =>
      (program.report 9 ⟨"", ["half", "again", "half"], none⟩).result.toOption.bind fun r =>
        r.trace.getLast?.map fun last => last.states.size) = some 2 := by
    decide +kernel
  obtain ⟨program, hload, hrun⟩ := Option.bind_eq_some_iff.1 hrun
  obtain ⟨r, hr, hrun⟩ := Option.bind_eq_some_iff.1 hrun
  obtain ⟨last, hlast, hsize⟩ := Option.map_eq_some_iff.1 hrun
  replace hload := eq_ok_of_toOption hload
  replace hr := eq_ok_of_toOption hr
  obtain ⟨-, hlabel, hnumbers, hsupply, -, hstates⟩ := load_faithful hload
  have hhalf : (numbered (mentions twoFunctions.functions))[3]? = some "half" := by decide +kernel
  have hout : (numbered (mentions twoFunctions.functions))[2]? = some "out" := by decide +kernel
  have hcount : (numbered (mentions twoFunctions.functions)).length = 4 := by decide +kernel
  have hperm := (hstates _ _ r hr last hlast).1.length_eq
  rw [List.length_map] at hperm
  exact ⟨program, hload, (hnumbers.id "half" 3).2 hhalf,
    hlabel "out" (.id 2) ((hnumbers.id "out" 2).2 hout), hsupply.trans hcount, r, hr,
    hperm.trans hsize⟩

end Demanded
