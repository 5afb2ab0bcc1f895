import Demanded.Proofs.Containers
import Demanded.Source.Load

/-!
# Steps of loading

`Loads` says that steps of loading succeed, and one lemma for each function of loading says when
they do and what they do.  A label that is claimed gets an owner, and a location if it has none
(`Loading.grant`); labels that have them keep both (`Loading.Extends`).
-/

namespace Demanded

/-! ## Steps that succeed -/

/-- The steps of loading succeed with a result and lead to another state of loading. -/
def Loads {α : Type} (m : LoadM α) (s : Loading) (a : α) (s' : Loading) : Prop :=
  m.run s = (.ok a, s')

section Steps

variable {α β : Type} {s s' : Loading}

theorem loads_bind {m : LoadM α} {f : α → LoadM β} {b : β} :
    Loads (m >>= f) s b s' ↔ ∃ a s₁, Loads m s a s₁ ∧ Loads (f a) s₁ b s' := by
  unfold Loads
  rw [ExceptT.run_bind]
  simp only [bind, StateT.bind]
  rcases m.run s with ⟨_ | a, s₁⟩
  · exact ⟨fun h => (nomatch h), fun ⟨_, _, h, _⟩ => nomatch h⟩
  · refine ⟨fun h => ⟨a, s₁, rfl, h⟩, ?_⟩
    rintro ⟨_, _, heq, h⟩
    cases heq
    exact h

theorem loads_pure {a b : α} : Loads (pure a) s b s' ↔ a = b ∧ s = s' := by
  show (Except.ok a, s) = (Except.ok b, s') ↔ _
  simp

theorem not_loads_throw {e : Failure} {b : α} : ¬Loads (throw e) s b s' := fun h => nomatch h

theorem not_loads_throw_bind {e : Failure} {f : α → LoadM β} {b : β} :
    ¬Loads (throw e >>= f) s b s' := by
  intro h
  obtain ⟨_, _, hthrow, -⟩ := loads_bind.1 h
  exact not_loads_throw hthrow

theorem loads_get {t : Loading} : Loads get s t s' ↔ s = t ∧ s = s' := by
  show (Except.ok s, s) = (Except.ok t, s') ↔ _
  simp

theorem loads_set {t : Loading} {u : PUnit} : Loads (set t) s u s' ↔ t = s' := by
  show (Except.ok PUnit.unit, t) = (Except.ok u, s') ↔ _
  simp

theorem loads_modify {f : Loading → Loading} {u : PUnit} : Loads (modify f) s u s' ↔ f s = s' := by
  show (Except.ok PUnit.unit, f s) = (Except.ok u, s') ↔ _
  simp

end Steps

/-! ## Labels and locations -/

namespace Loading

/-- The state in which a label without an owner got one, and a location if it had none. -/
def grant (s : Loading) (owner label : String) : Loading :=
  match s.labels.get? label with
  | some _ => { s with owners := s.owners.insert label owner }
  | none =>
    { s with
      owners := s.owners.insert label owner
      labels := s.labels.insert label s.supply.fresh.1
      supply := s.supply.fresh.2 }

variable {s s' : Loading} {owner label : String}

theorem grant_of_some {loc : Loc} (h : s.labels.get? label = some loc) :
    s.grant owner label = { s with owners := s.owners.insert label owner } := by
  simp only [grant, h]

theorem grant_of_none (h : s.labels.get? label = none) :
    s.grant owner label =
      { s with
        owners := s.owners.insert label owner
        labels := s.labels.insert label s.supply.fresh.1
        supply := s.supply.fresh.2 } := by
  simp only [grant, h]

@[simp]
theorem owners_grant : (s.grant owner label).owners = s.owners.insert label owner := by
  unfold grant
  split <;> rfl

@[simp]
theorem flow_grant : (s.grant owner label).flow = s.flow := by
  unfold grant
  split <;> rfl

theorem labels_grant_of_some {l : String} {loc : Loc} (h : s.labels.get? l = some loc) :
    (s.grant owner label).labels.get? l = some loc := by
  unfold grant
  split
  · exact h
  · rename_i hnone
    have hne : l ≠ label := fun heq => by rw [heq, hnone] at h; cases h
    rwa [OrdMap.get?_insert_of_ne _ _ hne]

theorem owners_grant_of_some {l o : String} (hnone : s.owners.get? label = none)
    (h : s.owners.get? l = some o) : (s.grant owner label).owners.get? l = some o := by
  have hne : l ≠ label := fun heq => by rw [heq, hnone] at h; cases h
  rw [owners_grant, OrdMap.get?_insert_of_ne _ _ hne, h]

end Loading

/-- A label is claimed if it is not empty and nobody else has it. -/
theorem loads_claimLabel {s s' : Loading} {owner label : String} {u : Unit} :
    Loads (claimLabel owner label) s u s' ↔ label ≠ "" ∧
      (s.owners.get? label = some owner ∧ s' = s ∨
        s.owners.get? label = none ∧ s' = s.grant owner label) := by
  unfold claimLabel
  simp only [loads_bind, loads_get]
  constructor
  · rintro ⟨_, _, ⟨rfl, rfl⟩, h⟩
    split at h
    · exact absurd h not_loads_throw
    · rename_i hlabel
      refine ⟨hlabel, ?_⟩
      split at h
      · rename_i other hother
        split at h
        · rename_i heq
          obtain ⟨-, rfl⟩ := loads_pure.1 h
          exact .inl ⟨heq ▸ hother, rfl⟩
        · exact absurd h not_loads_throw
      · rename_i hnone
        refine .inr ⟨hnone, ?_⟩
        split at h
        · rename_i loc hloc
          exact (Loading.grant_of_some hloc ▸ loads_set.1 h).symm
        · rename_i hloc
          exact (Loading.grant_of_none hloc ▸ loads_set.1 h).symm
  · rintro ⟨hlabel, ⟨hown, rfl⟩ | ⟨hnone, rfl⟩⟩
    · refine ⟨_, _, ⟨rfl, rfl⟩, ?_⟩
      simp only [if_neg hlabel, hown, if_pos]
      exact loads_pure.2 ⟨rfl, rfl⟩
    · refine ⟨_, _, ⟨rfl, rfl⟩, ?_⟩
      simp only [if_neg hlabel, hnone]
      split
      · rename_i loc hloc
        exact loads_set.2 (Loading.grant_of_some hloc).symm
      · rename_i hloc
        exact loads_set.2 (Loading.grant_of_none hloc).symm

namespace Loading

variable {s s' : Loading} {owner label : String}

/-- Labels keep their owners and locations. -/
structure Extends (s s' : Loading) : Prop where
  flow : s'.flow = s.flow
  owners : ∀ l o, s.owners.get? l = some o → s'.owners.get? l = some o
  labels : ∀ l loc, s.labels.get? l = some loc → s'.labels.get? l = some loc

theorem Extends.refl (s : Loading) : s.Extends s := ⟨rfl, fun _ _ h => h, fun _ _ h => h⟩

theorem Extends.trans {s₁ : Loading} (h : s.Extends s₁) (h' : s₁.Extends s') : s.Extends s' :=
  ⟨h'.flow.trans h.flow, fun l o ho => h'.owners l o (h.owners l o ho),
    fun l loc hl => h'.labels l loc (h.labels l loc hl)⟩

theorem extends_grant (hnone : s.owners.get? label = none) : s.Extends (s.grant owner label) :=
  ⟨flow_grant, fun _ _ => owners_grant_of_some hnone, fun _ _ => labels_grant_of_some⟩

end Loading

/-! ## Loading a function -/

theorem FlowGraph.edges_addFunction (f : FlowGraph) (fn : Function) :
    (f.addFunction fn).edges = f.edges :=
  (Multigraph.edges_addNode _ _).trans (Multigraph.edges_addNode _ _)

/-- Adds statements with their ends, one after the other. -/
def FlowGraph.addEdges (f : FlowGraph) (edges : List (Edge Loc Stmt)) : FlowGraph :=
  edges.foldl (fun f e => f.addEdge e.src e.dst e.label) f

theorem FlowGraph.functions_addEdges (f : FlowGraph) (edges : List (Edge Loc Stmt)) :
    (f.addEdges edges).functions = f.functions := by
  induction edges generalizing f with
  | nil => rfl
  | cons e rest ih => exact ih _

theorem FlowGraph.edges_addEdges (f : FlowGraph) (edges : List (Edge Loc Stmt)) :
    (f.addEdges edges).edges = f.edges ++ edges := by
  induction edges generalizing f with
  | nil => exact (List.append_nil _).symm
  | cons e rest ih =>
    show ((f.addEdge e.src e.dst e.label).addEdges rest).edges = _
    rw [ih]
    exact List.append_assoc f.edges [e] rest

/-- A stored edge became an edge between the locations of its labels, with its statement. -/
structure SourceEdge.PlacedAs (labels : OrdMap String Loc) (e : SourceEdge)
    (placed : Edge Loc Stmt) : Prop where
  src : labels.get? e.src = some placed.src
  dst : labels.get? e.dst = some placed.dst
  label : placed.label = e.stmt

section Functions

open Loading

variable {s s' : Loading} {owner label : String} {u : Unit}

theorem loads_claimLabels_extends {labels : List String}
    (h : Loads (claimLabels owner labels) s u s') : s.Extends s' := by
  induction labels generalizing s with
  | nil =>
    obtain ⟨-, rfl⟩ := loads_pure.1 h
    exact .refl s
  | cons label rest ih =>
    obtain ⟨_, s₁, hfirst, hrest⟩ := loads_bind.1 h
    rcases (loads_claimLabel.1 hfirst).2 with ⟨-, rfl⟩ | ⟨hnone, rfl⟩
    · exact ih hrest
    · exact (extends_grant hnone).trans (ih hrest)

theorem loads_locOfLabel {loc : Loc} :
    Loads (locOfLabel label) s loc s' ↔ s.labels.get? label = some loc ∧ s' = s := by
  unfold locOfLabel
  simp only [loads_bind, loads_get]
  constructor
  · rintro ⟨_, _, ⟨rfl, rfl⟩, h⟩
    split at h
    · rename_i hloc
      obtain ⟨rfl, rfl⟩ := loads_pure.1 h
      exact ⟨hloc, rfl⟩
    · exact absurd h not_loads_throw
  · rintro ⟨hloc, rfl⟩
    refine ⟨_, _, ⟨rfl, rfl⟩, ?_⟩
    simp only [hloc]
    exact loads_pure.2 ⟨rfl, rfl⟩

/-- Edges lead between the locations of their labels, and nothing else changes. -/
theorem loads_loadEdges {edges : List SourceEdge} :
    Loads (loadEdges edges) s u s' ↔
      ∃ placed, List.Forall₂ (SourceEdge.PlacedAs s.labels) edges placed ∧
        s' = { s with flow := s.flow.addEdges placed } := by
  induction edges generalizing s with
  | nil =>
    refine loads_pure.trans ⟨fun ⟨_, h⟩ => ⟨[], .nil, h.symm⟩, ?_⟩
    rintro ⟨_, hplaced, rfl⟩
    cases hplaced
    exact ⟨rfl, rfl⟩
  | cons e rest ih =>
    simp only [loadEdges, loads_bind, loads_modify, loads_locOfLabel, ih]
    constructor
    · rintro ⟨src, _, ⟨hsrc, rfl⟩, dst, _, ⟨hdst, rfl⟩, -, _, rfl, placed, hplaced, rfl⟩
      exact ⟨⟨src, dst, e.stmt⟩ :: placed, .cons ⟨hsrc, hdst, rfl⟩ hplaced, rfl⟩
    · rintro ⟨_, hplaced, rfl⟩
      cases hplaced with
      | @cons _ first _ placed hfirst hplaced =>
        refine ⟨_, s, ⟨hfirst.src, rfl⟩, _, s, ⟨hfirst.dst, rfl⟩, (), _, rfl, placed, hplaced, ?_⟩
        rw [← hfirst.label]
        rfl

/-- A function with a new name and two ends claims its labels, then its edges are added and then
itself. -/
theorem loads_loadFunction_iff {f : SourceFunction} :
    Loads (loadFunction f) s u s' ↔
      (∀ fn ∈ s.flow.functions, fn.name ≠ f.name) ∧ f.entry ≠ f.exit ∧
        ∃ s₁ enters leaves placed, Loads (claimLabels f.name f.labels) s () s₁ ∧
          s₁.labels.get? f.entry = some enters ∧ s₁.labels.get? f.exit = some leaves ∧
          List.Forall₂ (SourceEdge.PlacedAs s₁.labels) f.edges placed ∧
          s' = { s₁ with
            flow := (s₁.flow.addEdges placed).addFunction
              (.ofBody f.name f.formals enters leaves (f.edges.map SourceEdge.stmt)) } := by
  unfold loadFunction
  simp only [loads_bind, loads_get]
  constructor
  · rintro ⟨_, _, ⟨rfl, rfl⟩, h⟩
    split at h
    · exact absurd h not_loads_throw_bind
    rename_i hfresh
    split at h
    · exact absurd h not_loads_throw_bind
    rename_i hends
    simp only [loads_bind, loads_modify, loads_locOfLabel, loads_loadEdges] at h
    obtain ⟨_, s₁, hclaim, enters, _, ⟨hentry, rfl⟩, leaves, _, ⟨hexit, rfl⟩, -, _,
      ⟨placed, hplaced, rfl⟩, rfl⟩ := h
    refine ⟨fun fn hfn heq => hfresh ?_, hends, _, enters, leaves, placed, hclaim, hentry, hexit,
      hplaced, rfl⟩
    exact List.any_eq_true.2 ⟨fn, hfn, decide_eq_true heq⟩
  · rintro ⟨hfresh, hends, s₁, enters, leaves, placed, hclaim, hentry, hexit, hplaced, rfl⟩
    have hfresh : ¬s.flow.functions.any (fun fn => decide (fn.name = f.name)) = true := by
      simpa using hfresh
    refine ⟨s, s, ⟨rfl, rfl⟩, ?_⟩
    rw [if_neg hfresh, if_neg hends]
    simp only [loads_bind, loads_modify, loads_locOfLabel, loads_loadEdges]
    exact ⟨(), s₁, hclaim, enters, s₁, ⟨hentry, rfl⟩, leaves, s₁, ⟨hexit, rfl⟩, (), _,
      ⟨placed, hplaced, rfl⟩, rfl⟩

theorem labels_start {l : String} {loc : Loc} :
    Loading.start.labels.get? l = some loc ↔ (l, loc) ∈ [("entry", Loc.entry), ("exit", .exit)] :=
  OrdMap.get?_ofList_eq_some_iff (by decide)

theorem loads_checkDeadEnds :
    Loads checkDeadEnds s u s' ↔ (∀ loc ∈ s.flow.locs, s.flow.isDeadEnd loc = false) ∧ s' = s := by
  unfold checkDeadEnds
  simp only [loads_bind, loads_get]
  constructor
  · rintro ⟨_, _, ⟨rfl, rfl⟩, h⟩
    split at h
    · exact absurd h not_loads_throw
    · rename_i hnone
      exact ⟨by simpa using hnone, (loads_pure.1 h).2.symm⟩
  · rintro ⟨hnone, rfl⟩
    refine ⟨_, _, ⟨rfl, rfl⟩, ?_⟩
    rw [List.find?_eq_none.2 (by simpa using hnone)]
    exact loads_pure.2 ⟨rfl, rfl⟩

theorem loads_loadProgram {source : SourceProgram} {program : Program} :
    Loads (loadProgram source) s program s' ↔
      source.functions ≠ [] ∧ Loads (loadFunctions source.functions) Loading.start () s' ∧
        (∀ loc ∈ s'.flow.locs, s'.flow.isDeadEnd loc = false) ∧
        program = ⟨s'.flow, s'.labels⟩ := by
  unfold loadProgram
  rw [← List.isEmpty_eq_false_iff]
  constructor
  · intro h
    split at h
    · exact absurd h not_loads_throw_bind
    rename_i hsome
    simp only [loads_bind, loads_set, loads_get, loads_pure, loads_checkDeadEnds] at h
    obtain ⟨_, _, rfl, _, s₁, hfunctions, _, _, ⟨hdead, rfl⟩, _, _, ⟨rfl, rfl⟩, rfl, rfl⟩ := h
    exact ⟨by simpa using hsome, hfunctions, hdead, rfl⟩
  · rintro ⟨hsome, hfunctions, hdead, rfl⟩
    rw [if_neg (by simp [hsome])]
    simp only [loads_bind, loads_set, loads_get, loads_pure, loads_checkDeadEnds]
    exact ⟨(), _, rfl, (), s', hfunctions, (), s', ⟨hdead, rfl⟩, s', s', ⟨rfl, rfl⟩, rfl, rfl⟩

/-- The state in which a program was loaded. -/
theorem loads_of_load {source : SourceProgram} {supply : LocSupply} {program : Program}
    (h : (source.load supply).result = .ok program) :
    ∃ s, Loads (loadProgram source) { Loading.start with supply := supply } program s ∧
      (source.load supply).supply = s.supply :=
  ⟨_, Prod.ext h rfl, rfl⟩

end Functions

end Demanded
