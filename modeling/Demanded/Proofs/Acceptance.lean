import Demanded.Proofs.Mentions

/-!
# Programs that can be loaded

The checks of loading are spread over its steps: a function is looked at when its turn comes, a
label when it is mentioned, and whether a location leads on when all functions are there.  Together
they accept the programs that are well formed, and these only.
-/

namespace Demanded

/-- A program has a function, its functions are compatible, and every label that is mentioned is the
source of an edge unless it stands for a sentinel or a function leaves there. -/
structure SourceProgram.WellFormed (p : SourceProgram) : Prop extends
    Compatible p.functions where
  nonempty : p.functions ≠ []
  leads : ∀ f ∈ p.functions, ∀ l ∈ f.labels, l ≠ "entry" → l ≠ "exit" →
    (∀ g ∈ p.functions, g.exit ≠ l) → ∃ g ∈ p.functions, ∃ e ∈ g.edges, e.src = l

/-! ## Dead ends -/

theorem FlowGraph.isDeadEnd_eq_false_iff {f : FlowGraph} {loc : Loc} :
    f.isDeadEnd loc = false ↔
      loc.isSentinel = true ∨ (∃ fn ∈ f.functions, fn.exit = loc) ∨ ∃ e ∈ f.edges, e.src = loc := by
  have hnext : (f.successors loc).isEmpty = false ↔ ∃ e ∈ f.edges, e.src = loc := by
    rw [List.isEmpty_eq_false_iff_exists_mem]
    simp only [successors, Multigraph.mem_successors_iff, Multigraph.Leads]
    exact ⟨fun ⟨_, e, he, hsrc, _⟩ => ⟨e, he, hsrc⟩, fun ⟨e, he, hsrc⟩ => ⟨_, e, he, hsrc, rfl⟩⟩
  have hleaves : (f.functions.any fun fn => decide (fn.exit = loc)) = true ↔
      ∃ fn ∈ f.functions, fn.exit = loc := by
    simp
  rw [← hnext, ← hleaves, isDeadEnd, Bool.and_eq_false_iff, Bool.and_eq_false_iff,
    Bool.not_eq_false', Bool.not_eq_false', or_assoc]

section DeadEnds

variable {s : Loading} {fs : List SourceFunction} {l : String} {loc : Loc}

theorem Loading.Holds.exists_exit_iff (hs : s.Holds fs) (hloc : s.labels.get? l = some loc) :
    (∃ fn ∈ s.flow.functions, fn.exit = loc) ↔ ∃ f ∈ fs, f.exit = l := by
  refine (exists_mem_congr_of_forall₂ hs.functions fun f fn hf => ?_).symm
  constructor
  · rintro rfl
    exact Option.some.inj (hf.exit.symm.trans hloc)
  · rintro rfl
    exact hs.numbers.injective hf.exit hloc

theorem Loading.Holds.exists_src_iff (hs : s.Holds fs) (hloc : s.labels.get? l = some loc) :
    (∃ e ∈ s.flow.edges, e.src = loc) ↔ ∃ f ∈ fs, ∃ e ∈ f.edges, e.src = l := by
  have hedges : (∃ e ∈ fs.flatMap SourceFunction.edges, e.src = l) ↔
      ∃ e ∈ s.flow.edges, e.src = loc := by
    refine exists_mem_congr_of_forall₂ hs.edges fun e e' he => ?_
    constructor
    · rintro rfl
      exact Option.some.inj (he.src.symm.trans hloc)
    · rintro rfl
      exact hs.numbers.injective he.src hloc
  rw [← hedges]
  simp only [List.mem_flatMap]
  exact ⟨fun ⟨e, ⟨f, hf, he⟩, hsrc⟩ => ⟨f, hf, e, he, hsrc⟩,
    fun ⟨f, hf, e, he, hsrc⟩ => ⟨e, ⟨f, hf, he⟩, hsrc⟩⟩

/-- No location is a dead end if every label leads on. -/
theorem Loading.Holds.forall_isDeadEnd_iff (hs : s.Holds fs) :
    (∀ loc ∈ s.flow.locs, s.flow.isDeadEnd loc = false) ↔
      ∀ f ∈ fs, ∀ l ∈ f.labels, l ≠ "entry" → l ≠ "exit" → (∀ g ∈ fs, g.exit ≠ l) →
        ∃ g ∈ fs, ∃ e ∈ g.edges, e.src = l := by
  -- the condition at the location of one label
  have hlabel : ∀ l loc, s.labels.get? l = some loc → (s.flow.isDeadEnd loc = false ↔
      (l ≠ "entry" → l ≠ "exit" → (∀ g ∈ fs, g.exit ≠ l) →
        ∃ g ∈ fs, ∃ e ∈ g.edges, e.src = l)) := by
    intro l loc hloc
    rw [FlowGraph.isDeadEnd_eq_false_iff, hs.numbers.isSentinel_iff hloc, hs.exists_exit_iff hloc,
      hs.exists_src_iff hloc]
    by_cases hentry : l = "entry"
    · simp [hentry]
    by_cases hexit : l = "exit"
    · simp [hexit]
    by_cases hleaves : ∃ f ∈ fs, f.exit = l
    · obtain ⟨f, hf, hl⟩ := hleaves
      exact iff_of_true (.inr (.inl ⟨f, hf, hl⟩)) fun _ _ hno => absurd hl (hno f hf)
    · have hno : ∀ g ∈ fs, g.exit ≠ l := fun g hg hl => hleaves ⟨g, hg, hl⟩
      simp only [hentry, hexit, hleaves, false_or, ne_eq, not_false_iff, true_imp_iff]
      exact ⟨fun h _ => h, fun h => h hno⟩
  constructor
  · intro h f hf l hl
    have hmem : l ∈ mentions fs := mem_mentions.2 ⟨f, hf, hl⟩
    obtain ⟨loc, hloc⟩ := hs.numbers.exists_iff.2 (.inl hmem)
    have hnode : loc ∈ s.flow.graph.nodes := (hs.nodes loc).2 ⟨l, hmem, hloc⟩
    exact (hlabel l loc hloc).1 (h loc (Multigraph.mem_sortedNodes.2 hnode))
  · intro h loc hloc
    obtain ⟨l, hl, hloc⟩ := (hs.nodes loc).1 (Multigraph.mem_sortedNodes.1 hloc)
    obtain ⟨f, hf, hl⟩ := mem_mentions.1 hl
    exact (hlabel l loc hloc).2 (h f hf l hl)

end DeadEnds

/-! ## Labels that are looked up -/

/-- The steps of loading do not fail for want of the location of a label. -/
def FindsLabels {α : Type} (m : LoadM α) (s : Loading) : Prop :=
  ∀ label, (m.run s).1 ≠ .error (.unallocatedLabel label)

section FindsLabels

variable {α β : Type} {s : Loading}

theorem FindsLabels.bind {m : LoadM α} {f : α → LoadM β} (hm : FindsLabels m s)
    (hf : ∀ a s', Loads m s a s' → FindsLabels (f a) s') : FindsLabels (m >>= f) s := by
  intro label h
  rw [ExceptT.run_bind] at h
  simp only [Bind.bind, StateT.bind] at h
  cases hrun : m.run s with
  | mk result s' =>
    rw [hrun] at h
    cases result with
    | error e =>
      cases h
      exact hm label (congrArg Prod.fst hrun)
    | ok a => exact hf a s' hrun label h

theorem findsLabels_of_loads {m : LoadM α} {a : α} {s' : Loading} (h : Loads m s a s') :
    FindsLabels m s := by
  intro label herror
  rw [h] at herror
  cases herror

theorem findsLabels_pure {a : α} : FindsLabels (pure a) s := findsLabels_of_loads rfl

theorem findsLabels_throw {e : Failure} (h : ∀ label, e ≠ .unallocatedLabel label) :
    FindsLabels (throw e : LoadM α) s := by
  intro label herror
  exact h label (Except.error.inj herror)

theorem findsLabels_throw_bind {e : Failure} {f : α → LoadM β}
    (h : ∀ label, e ≠ .unallocatedLabel label) : FindsLabels (throw e >>= f) s :=
  .bind (findsLabels_throw h) fun _ _ hthrow => absurd hthrow not_loads_throw

theorem findsLabels_claimLabel (owner label : String) : FindsLabels (claimLabel owner label) s := by
  refine .bind (findsLabels_of_loads rfl) fun s₁ _ _ => ?_
  dsimp only
  split
  · exact findsLabels_throw_bind fun _ h => by cases h
  split
  · split
    · exact findsLabels_pure
    · exact findsLabels_throw fun _ h => by cases h
  · split <;> exact findsLabels_of_loads rfl

theorem findsLabels_claimLabels (owner : String) (labels : List String) :
    FindsLabels (claimLabels owner labels) s := by
  induction labels generalizing s with
  | nil => exact findsLabels_pure
  | cons label rest ih => exact .bind (findsLabels_claimLabel owner label) fun _ _ _ => ih

/-- The labels of a function are claimed before they are looked up. -/
theorem findsLabels_loadFunction {fs : List SourceFunction} (hs : s.Holds fs) (f : SourceFunction) :
    FindsLabels (loadFunction f) s := by
  refine .bind (findsLabels_of_loads rfl) fun _ _ hget => ?_
  obtain ⟨rfl, rfl⟩ := loads_get.1 hget
  dsimp only
  split
  · exact findsLabels_throw_bind fun _ h => by cases h
  split
  · exact findsLabels_throw_bind fun _ h => by cases h
  refine .bind (findsLabels_claimLabels _ _) fun _ s₁ hclaims => ?_
  obtain ⟨enters, leaves, placed, hentry, hexit, hplaced⟩ := exists_placement hs.claimed hclaims
  refine .bind (findsLabels_of_loads (loads_locOfLabel.2 ⟨hentry, rfl⟩)) fun _ _ h => ?_
  obtain ⟨-, rfl⟩ := loads_locOfLabel.1 h
  refine .bind (findsLabels_of_loads (loads_locOfLabel.2 ⟨hexit, rfl⟩)) fun _ _ h => ?_
  obtain ⟨-, rfl⟩ := loads_locOfLabel.1 h
  have hedges := loads_loadEdges (u := ()).2 ⟨placed, hplaced, rfl⟩
  refine .bind (findsLabels_of_loads hedges) fun _ _ _ => ?_
  exact findsLabels_of_loads rfl

theorem findsLabels_loadFunctions {fs : List SourceFunction} (hs : s.Holds fs)
    (rest : List SourceFunction) : FindsLabels (loadFunctions rest) s := by
  induction rest generalizing s fs with
  | nil => exact findsLabels_pure
  | cons f rest ih =>
    exact .bind (findsLabels_loadFunction hs f) fun _ _ hfirst =>
      ih (loads_loadFunction_holds hs hfirst)

theorem findsLabels_checkDeadEnds : FindsLabels checkDeadEnds s := by
  refine .bind (findsLabels_of_loads rfl) fun _ _ _ => ?_
  split
  · exact findsLabels_throw fun _ h => by cases h
  · exact findsLabels_pure

theorem findsLabels_loadProgram (source : SourceProgram) : FindsLabels (loadProgram source) s := by
  unfold loadProgram
  dsimp only
  split
  · exact findsLabels_throw_bind fun _ h => by cases h
  refine .bind (findsLabels_of_loads rfl) fun _ _ hset => ?_
  obtain rfl := loads_set.1 hset
  refine .bind (findsLabels_loadFunctions Loading.holds_start _) fun _ _ _ => ?_
  refine .bind findsLabels_checkDeadEnds fun _ _ _ => ?_
  exact findsLabels_of_loads rfl

end FindsLabels

/-- A program is loaded if and only if it is well formed: it has a function, the names of functions
differ, no function enters where it leaves, no label is empty, no label is mentioned by two
functions, and every label that is mentioned, does not stand for a sentinel and is not where a
function leaves is the source of an edge.  A label that is looked up always has a location. -/
theorem SourceProgram.load_accepts_iff (source : SourceProgram) (supply : LocSupply) :
    ((∃ program, (source.load supply).result = .ok program) ↔ source.WellFormed) ∧
      ∀ label, (source.load supply).result ≠ .error (.unallocatedLabel label) := by
  refine ⟨⟨?_, ?_⟩, findsLabels_loadProgram source⟩
  · rintro ⟨program, h⟩
    obtain ⟨s, hrun, -⟩ := loads_of_load h
    obtain ⟨hsome, hfunctions, hdead, -⟩ := loads_loadProgram.1 hrun
    have hs := loads_loadFunctions_holds Loading.holds_start hfunctions
    exact ⟨compatible_of_load h, hsome, hs.forall_isDeadEnd_iff.1 hdead⟩
  · intro h
    obtain ⟨s, hfunctions⟩ := (exists_loads_loadFunctions_iff (u := ()) Loading.holds_start
      compatible_nil).2 h.toCompatible
    have hs := loads_loadFunctions_holds Loading.holds_start hfunctions
    have hdead := hs.forall_isDeadEnd_iff.2 h.leads
    exact ⟨_, congrArg Prod.fst
      (loads_loadProgram.2 ⟨h.nonempty, hfunctions, hdead, rfl⟩ :
        Loads (loadProgram source) { Loading.start with supply := supply } _ s)⟩

end Demanded
