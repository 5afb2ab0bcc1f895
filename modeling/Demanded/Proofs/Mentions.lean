import Mathlib.Data.List.Nodup
import Demanded.Proofs.Loading
import Demanded.Proofs.Paths

/-!
# Labels in the order of mention

What loading has done after some functions is determined by these functions.  The sentinels apart,
the labels that the functions mention are numbered in the order in which they are first mentioned
(`Numbers`), each is owned by the function that mentions it (`Loading.Claimed`), and the flow graph
has the edges of the functions, one function after the other (`Loading.Holds`).

The function that comes next can be loaded if and only if it fits after the others
(`SourceFunction.FitsAfter`), and functions can be loaded one after the other if and only if they
are `Compatible`.

A function mentions its entry before its other labels, and its edges join its own labels.  So of the
locations that lead to the entry of a function, none comes before it but the sentinels
(`rank_entry_le`).
-/

namespace Demanded

/-! ## Numbered labels -/

/-- The labels that get a number, in the order in which they are first mentioned. -/
def numbered (mentioned : List String) : List String :=
  (mentioned.filter fun l => decide (l ≠ "entry" ∧ l ≠ "exit")).eraseDups

theorem mem_numbered {mentioned : List String} {l : String} :
    l ∈ numbered mentioned ↔ l ∈ mentioned ∧ l ≠ "entry" ∧ l ≠ "exit" := by
  rw [numbered, List.mem_eraseDups, List.mem_filter, decide_eq_true_iff]

theorem numbered_concat_of_mem {mentioned : List String} {l : String}
    (h : l ∈ mentioned ∨ l = "entry" ∨ l = "exit") :
    numbered (mentioned ++ [l]) = numbered mentioned := by
  unfold numbered
  rw [List.filter_append, List.eraseDups_append]
  by_cases hl : l ≠ "entry" ∧ l ≠ "exit"
  · have hmem : l ∈ mentioned := h.resolve_right fun h => h.elim hl.1 hl.2
    simp [List.removeAll, hl, hmem]
  · simp [hl]

theorem numbered_concat_of_notMem {mentioned : List String} {l : String} (h : l ∉ mentioned)
    (hentry : l ≠ "entry") (hexit : l ≠ "exit") :
    numbered (mentioned ++ [l]) = numbered mentioned ++ [l] := by
  unfold numbered
  rw [List.filter_append, List.eraseDups_append]
  simp [List.removeAll, h, hentry, hexit, List.eraseDups_cons]

theorem getElem?_concat_eq_some_iff {xs : List String} {x y : String} {n : Nat} :
    (xs ++ [x])[n]? = some y ↔ xs[n]? = some y ∨ n = xs.length ∧ y = x := by
  by_cases hn : n < xs.length
  · have hne : n ≠ xs.length := by omega
    simp [List.getElem?_append_left hn, hne]
  · have hle : xs.length ≤ n := by omega
    rw [List.getElem?_append_right hle, List.getElem?_eq_none hle, List.getElem?_singleton]
    simp only [ite_eq_iff, Option.some.injEq, reduceCtorEq, false_or, or_false, and_false]
    constructor
    · intro h
      exact ⟨by omega, h.2.symm⟩
    · intro h
      exact ⟨by omega, h.2.symm⟩

/-- The labels `entry` and `exit` have the sentinels as locations, and the other mentioned ones are
numbered in the order in which they are first mentioned. -/
structure Numbers (labels : OrdMap String Loc) (mentioned : List String) : Prop where
  entry : ∀ l, labels.get? l = some .entry ↔ l = "entry"
  exit : ∀ l, labels.get? l = some .exit ↔ l = "exit"
  id : ∀ l n, labels.get? l = some (.id n) ↔ (numbered mentioned)[n]? = some l

namespace Numbers

variable {labels : OrdMap String Loc} {mentioned : List String}

theorem injective (h : Numbers labels mentioned) {a b : String} {loc : Loc}
    (ha : labels.get? a = some loc) (hb : labels.get? b = some loc) : a = b := by
  cases loc with
  | entry => exact ((h.entry a).1 ha).trans ((h.entry b).1 hb).symm
  | exit => exact ((h.exit a).1 ha).trans ((h.exit b).1 hb).symm
  | id n => exact Option.some.inj (((h.id a n).1 ha).symm.trans ((h.id b n).1 hb))

/-- Of the labels that are not mentioned before a given one, none has a smaller number. -/
theorem le_of_notMem {before rest : List String} {first l : String} {n k : Nat}
    (h : Numbers labels (before ++ first :: rest)) (hn : labels.get? first = some (.id n))
    (hk : labels.get? l = some (.id k)) (hl : l ∉ before) : n ≤ k := by
  obtain ⟨more, hmore⟩ : ∃ more, numbered (before ++ first :: rest) =
      numbered (before ++ [first]) ++ more := by
    rw [List.append_cons, numbered, List.filter_append, List.eraseDups_append]
    exact ⟨_, rfl⟩
  have hfirst := (h.id first n).1 hn
  have hnumbered := (mem_numbered.1 (List.mem_of_getElem? hfirst)).2
  obtain ⟨i, hi⟩ : ∃ i, (numbered (before ++ [first]))[i]? = some first :=
    List.mem_iff_getElem?.1 (mem_numbered.2 ⟨List.mem_append_right _ List.mem_cons_self, hnumbered⟩)
  obtain ⟨hlt, -⟩ := List.getElem?_eq_some_iff.1 hi
  -- the number of the first label is below the length of the part that ends with it
  have hin : n = i := by
    have hi' := (h.id first i).2 (by rw [hmore, List.getElem?_append_left hlt, hi])
    rw [hn] at hi'
    exact Loc.id.inj (Option.some.inj hi')
  by_contra hlt'
  have hkl := (h.id l k).1 hk
  rw [hmore, List.getElem?_append_left (by omega)] at hkl
  have hmem := (mem_numbered.1 (List.mem_of_getElem? hkl)).1
  rcases List.mem_append.1 hmem with hmem | hmem
  · exact hl hmem
  · rw [List.mem_singleton.1 hmem, hn] at hk
    cases hk
    exact hlt' (Nat.le_refl _)

/-- A label has a location if it is mentioned or stands for a sentinel. -/
theorem exists_iff (h : Numbers labels mentioned) {l : String} :
    (∃ loc, labels.get? l = some loc) ↔ l ∈ mentioned ∨ l = "entry" ∨ l = "exit" := by
  constructor
  · rintro ⟨loc, hloc⟩
    cases loc with
    | entry => exact .inr (.inl ((h.entry l).1 hloc))
    | exit => exact .inr (.inr ((h.exit l).1 hloc))
    | id n => exact .inl (mem_numbered.1 (List.mem_of_getElem? ((h.id l n).1 hloc))).1
  · intro hl
    by_cases hentry : l = "entry"
    · exact ⟨_, (h.entry l).2 hentry⟩
    by_cases hexit : l = "exit"
    · exact ⟨_, (h.exit l).2 hexit⟩
    have hmem : l ∈ mentioned := hl.resolve_right fun hl => hl.elim hentry hexit
    obtain ⟨n, hn⟩ := List.mem_iff_getElem?.1 (mem_numbered.2 ⟨hmem, hentry, hexit⟩)
    exact ⟨_, (h.id l n).2 hn⟩

theorem isSentinel_iff (h : Numbers labels mentioned) {l : String} {loc : Loc}
    (hloc : labels.get? l = some loc) : loc.isSentinel = true ↔ l = "entry" ∨ l = "exit" := by
  constructor
  · intro hsentinel
    cases loc with
    | entry => exact .inl ((h.entry l).1 hloc)
    | exit => exact .inr ((h.exit l).1 hloc)
    | id n => cases hsentinel
  · rintro (rfl | rfl)
    · rw [(h.entry _).2 rfl] at hloc
      cases hloc
      rfl
    · rw [(h.exit _).2 rfl] at hloc
      cases hloc
      rfl

/-- A label that has a location changes nothing when it is mentioned again. -/
theorem concat_of_some (h : Numbers labels mentioned) {l : String} {loc : Loc}
    (hloc : labels.get? l = some loc) : Numbers labels (mentioned ++ [l]) where
  entry := h.entry
  exit := h.exit
  id := by
    rw [numbered_concat_of_mem (h.exists_iff.1 ⟨loc, hloc⟩)]
    exact h.id

/-- A label without a location gets the next number. -/
theorem concat_of_none (h : Numbers labels mentioned) {l : String} (hnone : labels.get? l = none) :
    Numbers (labels.insert l (.id (numbered mentioned).length)) (mentioned ++ [l]) ∧
      numbered (mentioned ++ [l]) = numbered mentioned ++ [l] := by
  have hnew : l ∉ mentioned ∧ l ≠ "entry" ∧ l ≠ "exit" := by
    have hno : ¬∃ loc, labels.get? l = some loc := by simp [hnone]
    rw [h.exists_iff] at hno
    simpa [not_or] using hno
  obtain ⟨hmentioned, hentry, hexit⟩ := hnew
  have hnumbered := numbered_concat_of_notMem hmentioned hentry hexit
  refine ⟨⟨fun a => ?_, fun a => ?_, fun a n => ?_⟩, hnumbered⟩
  · rw [OrdMap.get?_insert_eq]
    by_cases hal : a = l
    · simp [hal, hentry]
    · simp [hal, h.entry]
  · rw [OrdMap.get?_insert_eq]
    by_cases hal : a = l
    · simp [hal, hexit]
    · simp [hal, h.exit]
  · rw [OrdMap.get?_insert_eq, hnumbered, getElem?_concat_eq_some_iff]
    by_cases hal : a = l
    · have hno : (numbered mentioned)[n]? ≠ some l := fun hn =>
        hmentioned (mem_numbered.1 (List.mem_of_getElem? hn)).1
      simp [hal, hno, eq_comm]
    · simp [hal, h.id]

end Numbers

/-! ## Claims -/

namespace Loading

/-- What is known after functions claimed labels, in this order. -/
structure Claimed (s : Loading) (claims : List (String × String)) : Prop where
  owners : ∀ l o, s.owners.get? l = some o ↔ (l, o) ∈ claims
  numbers : Numbers s.labels (claims.map Prod.fst)
  supply : s.supply.next = (numbered (claims.map Prod.fst)).length

variable {s s' : Loading} {owner label : String} {claims : List (String × String)}

theorem claimed_start : Loading.start.Claimed [] where
  owners l o := iff_of_false (fun h => nomatch h) List.not_mem_nil
  numbers :=
    { entry := fun l => labels_start.trans (by simp)
      exit := fun l => labels_start.trans (by simp)
      id := fun l n => labels_start.trans (by simp [numbered]) }
  supply := rfl

/-- A label that has a location takes no number when it is claimed. -/
theorem Claimed.numbers_concat (h : s.Claimed claims) {loc : Loc}
    (hloc : s.labels.get? label = some loc) (owner : String) :
    Numbers s.labels ((claims ++ [(label, owner)]).map Prod.fst) ∧
      s.supply.next = (numbered ((claims ++ [(label, owner)]).map Prod.fst)).length := by
  have hlength := congrArg List.length (numbered_concat_of_mem (h.numbers.exists_iff.1 ⟨loc, hloc⟩))
  rw [List.map_append]
  exact ⟨h.numbers.concat_of_some hloc, h.supply.trans hlength.symm⟩

theorem Claimed.again (h : s.Claimed claims) (hown : s.owners.get? label = some owner) :
    s.Claimed (claims ++ [(label, owner)]) := by
  have hmem : (label, owner) ∈ claims := (h.owners label owner).1 hown
  obtain ⟨loc, hloc⟩ := h.numbers.exists_iff.2 (.inl (List.mem_map_of_mem hmem))
  obtain ⟨hnumbers, hsupply⟩ := h.numbers_concat hloc owner
  refine ⟨fun l o => ?_, hnumbers, hsupply⟩
  rw [h.owners, List.mem_append, List.mem_singleton]
  exact ⟨.inl, fun hlo => hlo.elim id fun heq => heq ▸ hmem⟩

theorem Claimed.grant (h : s.Claimed claims) (hnone : s.owners.get? label = none) :
    (s.grant owner label).Claimed (claims ++ [(label, owner)]) := by
  have howners : ∀ l o, (s.grant owner label).owners.get? l = some o ↔
      (l, o) ∈ claims ++ [(label, owner)] := by
    intro l o
    rw [owners_grant, OrdMap.get?_insert_eq, List.mem_append, List.mem_singleton, Prod.mk.injEq]
    split
    · rename_i heq
      have hno : (label, o) ∉ claims := fun hmem => by
        rw [← h.owners, hnone] at hmem
        cases hmem
      simp only [hno, heq, Option.some.injEq, true_and, false_or, eq_comm]
    · rename_i hne
      simp [h.owners, hne]
  cases hloc : s.labels.get? label with
  | some loc =>
    obtain ⟨hnumbers, hsupply⟩ := h.numbers_concat hloc owner
    rw [grant_of_some hloc] at howners ⊢
    exact ⟨howners, hnumbers, hsupply⟩
  | none =>
    obtain ⟨hnumbers, hnumbered⟩ := h.numbers.concat_of_none hloc
    rw [← h.supply] at hnumbers
    rw [grant_of_none hloc] at howners ⊢
    refine ⟨howners, ?_, ?_⟩
    · rw [List.map_append]
      exact hnumbers
    · rw [List.map_append]
      show s.supply.next + 1 = (numbered (claims.map Prod.fst ++ [label])).length
      rw [hnumbered, h.supply, List.length_append, List.length_singleton]

end Loading

open Loading

section Claims

variable {s s' : Loading} {owner label : String} {claims : List (String × String)} {u : Unit}

theorem loads_claimLabel_claimed (hs : s.Claimed claims)
    (h : Loads (claimLabel owner label) s u s') :
    s'.Claimed (claims ++ [(label, owner)]) := by
  rcases (loads_claimLabel.1 h).2 with ⟨hown, rfl⟩ | ⟨hnone, rfl⟩
  · exact hs.again hown
  · exact hs.grant hnone

/-- A function can claim a label that is not empty and that no other function has. -/
theorem exists_loads_claimLabel_iff (hs : s.Claimed claims) :
    (∃ s', Loads (claimLabel owner label) s u s') ↔
      label ≠ "" ∧ ∀ o, (label, o) ∈ claims → o = owner := by
  simp only [loads_claimLabel, exists_and_left, exists_or, exists_eq, and_true,
    and_congr_right_iff, ← hs.owners]
  intro _
  cases s.owners.get? label <;> simp

theorem loads_claimLabels_claimed {labels : List String} (hs : s.Claimed claims)
    (h : Loads (claimLabels owner labels) s u s') :
    s'.Claimed (claims ++ labels.map fun l => (l, owner)) := by
  induction labels generalizing s claims with
  | nil =>
    obtain ⟨-, rfl⟩ := loads_pure.1 h
    simpa using hs
  | cons label rest ih =>
    obtain ⟨_, s₁, hfirst, hrest⟩ := loads_bind.1 h
    have hclaimed := ih (loads_claimLabel_claimed hs hfirst) hrest
    rwa [List.append_assoc] at hclaimed

theorem exists_loads_claimLabels_iff {labels : List String} (hs : s.Claimed claims) :
    (∃ s', Loads (claimLabels owner labels) s u s') ↔
      ∀ l ∈ labels, l ≠ "" ∧ ∀ o, (l, o) ∈ claims → o = owner := by
  induction labels generalizing s claims with
  | nil => exact ⟨fun _ l hl => absurd hl List.not_mem_nil, fun _ => ⟨s, loads_pure.2 ⟨rfl, rfl⟩⟩⟩
  | cons label rest ih =>
    -- what the first label adds to the claims has the same owner
    have hsame : ∀ l, (∀ o, (l, o) ∈ claims ++ [(label, owner)] → o = owner) ↔
        ∀ o, (l, o) ∈ claims → o = owner := by
      intro l
      simp only [List.mem_append, List.mem_singleton, Prod.mk.injEq, or_imp, forall_and]
      exact and_iff_left fun o ho => ho.2
    rw [List.forall_mem_cons, ← exists_loads_claimLabel_iff (u := u) hs]
    simp only [claimLabels, loads_bind]
    constructor
    · rintro ⟨s', _, s₁, hfirst, hrest⟩
      have hclaimed := loads_claimLabel_claimed hs hfirst
      refine ⟨⟨s₁, hfirst⟩, fun l hl => ?_⟩
      rw [← hsame]
      exact (ih hclaimed).1 ⟨s', hrest⟩ l hl
    · rintro ⟨⟨s₁, hfirst⟩, hall⟩
      have hclaimed := loads_claimLabel_claimed hs hfirst
      obtain ⟨s', hrest⟩ := (ih hclaimed).2 fun l hl => by
        rw [hsame]
        exact hall l hl
      exact ⟨s', _, s₁, hfirst, hrest⟩

end Claims

/-! ## Functions -/

/-- The labels that functions mention, in order. -/
def mentions (fs : List SourceFunction) : List String := fs.flatMap SourceFunction.labels

/-- The labels that functions mention, in order, with the names of the functions. -/
def claims (fs : List SourceFunction) : List (String × String) :=
  fs.flatMap fun f => f.labels.map fun l => (l, f.name)

section Lists

variable {fs : List SourceFunction} {f : SourceFunction} {l : String}

theorem mem_mentions : l ∈ mentions fs ↔ ∃ f ∈ fs, l ∈ f.labels := List.mem_flatMap

theorem mem_claims {o : String} : (l, o) ∈ claims fs ↔ ∃ f ∈ fs, l ∈ f.labels ∧ f.name = o := by
  simp [claims]

theorem map_fst_claims : (claims fs).map Prod.fst = mentions fs := by
  simp [claims, mentions, List.map_flatMap, Function.comp_def]

theorem claims_concat : claims (fs ++ [f]) = claims fs ++ f.labels.map fun l => (l, f.name) := by
  simp [claims]

theorem mentions_concat : mentions (fs ++ [f]) = mentions fs ++ f.labels := by
  simp [mentions]

theorem SourceFunction.mem_labels :
    l ∈ f.labels ↔ l = f.entry ∨ l = f.exit ∨ ∃ e ∈ f.edges, l = e.src ∨ l = e.dst := by
  simp [SourceFunction.labels]

theorem SourceFunction.ends_mem_labels {e : SourceEdge} (he : e ∈ f.edges) :
    e.src ∈ f.labels ∧ e.dst ∈ f.labels :=
  ⟨mem_labels.2 (.inr (.inr ⟨e, he, .inl rfl⟩)), mem_labels.2 (.inr (.inr ⟨e, he, .inr rfl⟩))⟩

end Lists

/-- A stored function became one between the locations of its ends. -/
structure SourceFunction.PlacedAs (labels : OrdMap String Loc) (f : SourceFunction)
    (placed : Function) : Prop where
  entry : labels.get? f.entry = some placed.entry
  exit : labels.get? f.exit = some placed.exit
  body : placed =
    .ofBody f.name f.formals placed.entry placed.exit (f.edges.map SourceEdge.stmt)

section Placement

variable {labels : OrdMap String Loc} {edges : List SourceEdge} {placed : List (Edge Loc Stmt)}

theorem exists_placed (h : ∀ e ∈ edges,
      (∃ loc, labels.get? e.src = some loc) ∧ ∃ loc, labels.get? e.dst = some loc) :
    ∃ placed, List.Forall₂ (SourceEdge.PlacedAs labels) edges placed := by
  induction edges with
  | nil => exact ⟨[], .nil⟩
  | cons e rest ih =>
    obtain ⟨⟨⟨src, hsrc⟩, dst, hdst⟩, hrest⟩ := List.forall_mem_cons.1 h
    obtain ⟨placed, hplaced⟩ := ih hrest
    exact ⟨⟨src, dst, e.stmt⟩ :: placed, .cons ⟨hsrc, hdst, rfl⟩ hplaced⟩

theorem exists_end_iff (h : List.Forall₂ (SourceEdge.PlacedAs labels) edges placed) {x : Loc} :
    (∃ e ∈ edges, labels.get? e.src = some x ∨ labels.get? e.dst = some x) ↔
      ∃ e ∈ placed, x = e.src ∨ x = e.dst :=
  exists_mem_congr_of_forall₂ h fun _ _ he => by rw [he.src, he.dst]; simp [eq_comm]

/-- The locations of the labels of a function are its ends and those of its edges. -/
theorem exists_label_iff {f : SourceFunction} {enters leaves x : Loc}
    (hentry : labels.get? f.entry = some enters) (hexit : labels.get? f.exit = some leaves) :
    (∃ l, l ∈ f.labels ∧ labels.get? l = some x) ↔
      (∃ e ∈ f.edges, labels.get? e.src = some x ∨ labels.get? e.dst = some x) ∨
        x = enters ∨ x = leaves := by
  simp only [SourceFunction.mem_labels]
  constructor
  · rintro ⟨l, rfl | rfl | ⟨e, he, rfl | rfl⟩, hx⟩
    · exact .inr (.inl (Option.some.inj (hx.symm.trans hentry)))
    · exact .inr (.inr (Option.some.inj (hx.symm.trans hexit)))
    · exact .inl ⟨e, he, .inl hx⟩
    · exact .inl ⟨e, he, .inr hx⟩
  · rintro (⟨e, he, hx | hx⟩ | rfl | rfl)
    · exact ⟨e.src, .inr (.inr ⟨e, he, .inl rfl⟩), hx⟩
    · exact ⟨e.dst, .inr (.inr ⟨e, he, .inr rfl⟩), hx⟩
    · exact ⟨f.entry, .inl rfl, hentry⟩
    · exact ⟨f.exit, .inr (.inl rfl), hexit⟩

theorem map_name_of_placed {fs : List SourceFunction} {functions : List Function}
    (h : List.Forall₂ (SourceFunction.PlacedAs labels) fs functions) :
    functions.map Function.name = fs.map SourceFunction.name := by
  induction h with
  | nil => rfl
  | cons hfirst _ ih => exact congrArg₂ List.cons (congrArg Function.name hfirst.body) ih

theorem FlowGraph.mem_nodes_addEdges {f : FlowGraph} {x : Loc} :
    x ∈ (f.addEdges placed).graph.nodes ↔
      x ∈ f.graph.nodes ∨ ∃ e ∈ placed, x = e.src ∨ x = e.dst := by
  induction placed generalizing f with
  | nil => simp [addEdges]
  | cons e rest ih =>
    show x ∈ ((f.addEdge e.src e.dst e.label).addEdges rest).graph.nodes ↔ _
    rw [ih]
    simp [addEdge, Multigraph.addEdge, Multigraph.mem_nodes_addNode, or_assoc]

theorem FlowGraph.mem_nodes_addFunction {f : FlowGraph} {fn : Function} {x : Loc} :
    x ∈ (f.addFunction fn).graph.nodes ↔ x ∈ f.graph.nodes ∨ x = fn.entry ∨ x = fn.exit := by
  simp [addFunction, Multigraph.mem_nodes_addNode, or_assoc]

end Placement

/-- What is known after functions were loaded, in this order. -/
structure Loading.Holds (s : Loading) (fs : List SourceFunction) : Prop where
  claimed : s.Claimed (claims fs)
  nodes : ∀ x, x ∈ s.flow.graph.nodes ↔ ∃ l ∈ mentions fs, s.labels.get? l = some x
  edges : List.Forall₂ (SourceEdge.PlacedAs s.labels) (fs.flatMap SourceFunction.edges) s.flow.edges
  functions : List.Forall₂ (SourceFunction.PlacedAs s.labels) fs s.flow.functions

theorem Loading.holds_start : Loading.start.Holds [] where
  claimed := claimed_start
  nodes _ := by simp [Loading.start, FlowGraph.empty, Multigraph.empty, mentions]
  edges := .nil
  functions := .nil

theorem Loading.Holds.numbers {s : Loading} {fs : List SourceFunction} (h : s.Holds fs) :
    Numbers s.labels (mentions fs) :=
  map_fst_claims ▸ h.claimed.numbers

theorem Loading.Holds.names {s : Loading} {fs : List SourceFunction} (h : s.Holds fs) :
    s.flow.functions.map Function.name = fs.map SourceFunction.name :=
  map_name_of_placed h.functions

/-- A function has its own name, its own labels, all of them with a text, and two different ends. -/
structure SourceFunction.FitsAfter (f : SourceFunction) (fs : List SourceFunction) : Prop where
  name : f.name ∉ fs.map SourceFunction.name
  ends : f.entry ≠ f.exit
  labelled : ∀ l ∈ f.labels, l ≠ ""
  apart : ∀ g ∈ fs, ∀ l ∈ g.labels, l ∉ f.labels

section Step

variable {s s' : Loading} {fs : List SourceFunction} {f : SourceFunction} {u : Unit}

theorem loads_loadFunction_holds (hs : s.Holds fs) (h : Loads (loadFunction f) s u s') :
    s'.Holds (fs ++ [f]) := by
  obtain ⟨-, -, s₁, enters, leaves, placed, hclaim, hentry, hexit, hplaced, rfl⟩ :=
    loads_loadFunction_iff.1 h
  have hext := loads_claimLabels_extends hclaim
  have hflow := hext.flow
  constructor
  case claimed =>
    have hclaimed := loads_claimLabels_claimed hs.claimed hclaim
    rw [← claims_concat] at hclaimed
    exact ⟨hclaimed.owners, hclaimed.numbers, hclaimed.supply⟩
  case nodes =>
    intro x
    -- the labels of the functions before keep their locations
    have hold : (∃ l ∈ mentions fs, s₁.labels.get? l = some x) ↔ x ∈ s.flow.graph.nodes := by
      rw [hs.nodes]
      refine exists_congr fun l => and_congr_right fun hl => ⟨fun hx => ?_, hext.labels l x⟩
      obtain ⟨loc, hloc⟩ := hs.numbers.exists_iff.2 (.inl hl)
      rwa [hloc, ← hext.labels l loc hloc]
    rw [FlowGraph.mem_nodes_addFunction, FlowGraph.mem_nodes_addEdges, hflow,
      ← exists_end_iff hplaced, ← hold, mentions_concat, or_assoc]
    simp only [List.mem_append, or_and_right, exists_or]
    exact or_congr_right (exists_label_iff hentry hexit).symm
  case edges =>
    rw [FlowGraph.edges_addFunction, FlowGraph.edges_addEdges, List.flatMap_append, hflow]
    refine List.rel_append ?_ (by simpa using hplaced)
    exact hs.edges.imp fun e e' he => ⟨hext.labels _ _ he.src, hext.labels _ _ he.dst, he.label⟩
  case functions =>
    show List.Forall₂ _ _ ((s₁.flow.addEdges placed).functions ++ [_])
    rw [FlowGraph.functions_addEdges, hflow]
    refine List.rel_append ?_ (.cons ⟨hentry, hexit, rfl⟩ .nil)
    exact hs.functions.imp fun g fn hg =>
      ⟨hext.labels _ _ hg.entry, hext.labels _ _ hg.exit, hg.body⟩

/-- After its labels are claimed, the ends and the edges of a function have their places. -/
theorem exists_placement {claims : List (String × String)} (hs : s.Claimed claims)
    (h : Loads (claimLabels f.name f.labels) s u s') :
    ∃ enters leaves placed, s'.labels.get? f.entry = some enters ∧
      s'.labels.get? f.exit = some leaves ∧
      List.Forall₂ (SourceEdge.PlacedAs s'.labels) f.edges placed := by
  have hclaimed := loads_claimLabels_claimed hs h
  have hlocated : ∀ l ∈ f.labels, ∃ loc, s'.labels.get? l = some loc := fun l hl =>
    hclaimed.numbers.exists_iff.2 (.inl (by simp [hl]))
  have hedges : ∀ e ∈ f.edges, (∃ loc, s'.labels.get? e.src = some loc) ∧
      ∃ loc, s'.labels.get? e.dst = some loc := fun e he =>
    ⟨hlocated _ (SourceFunction.ends_mem_labels he).1,
      hlocated _ (SourceFunction.ends_mem_labels he).2⟩
  obtain ⟨enters, henters⟩ := hlocated f.entry (SourceFunction.mem_labels.2 (.inl rfl))
  obtain ⟨leaves, hleaves⟩ := hlocated f.exit (SourceFunction.mem_labels.2 (.inr (.inl rfl)))
  obtain ⟨placed, hplaced⟩ := exists_placed hedges
  exact ⟨enters, leaves, placed, henters, hleaves, hplaced⟩

/-- The next function can be loaded if it fits after the others. -/
theorem exists_loads_loadFunction_iff (hs : s.Holds fs) :
    (∃ s', Loads (loadFunction f) s u s') ↔ f.FitsAfter fs := by
  have hname : (∀ fn ∈ s.flow.functions, fn.name ≠ f.name) ↔
      f.name ∉ fs.map SourceFunction.name := by
    rw [← hs.names]
    simp
  have hclaim : (∃ s₁, Loads (claimLabels f.name f.labels) s () s₁) ↔
      ∀ l ∈ f.labels, l ≠ "" ∧ ∀ o, (l, o) ∈ claims fs → o = f.name :=
    exists_loads_claimLabels_iff hs.claimed
  constructor
  · rintro ⟨s', h⟩
    obtain ⟨hfresh, hends, s₁, -, -, -, hclaims, -⟩ := loads_loadFunction_iff.1 h
    have hlabels := hclaim.1 ⟨s₁, hclaims⟩
    refine ⟨hname.1 hfresh, hends, fun l hl => (hlabels l hl).1, fun g hg l hl hl' => ?_⟩
    have howner := (hlabels l hl').2 g.name (mem_claims.2 ⟨g, hg, hl, rfl⟩)
    exact hname.1 hfresh (howner ▸ List.mem_map_of_mem hg)
  · intro hfits
    obtain ⟨s₁, hclaims⟩ := hclaim.2 fun l hl => ⟨hfits.labelled l hl, fun o ho => by
      obtain ⟨g, hg, hl', -⟩ := mem_claims.1 ho
      exact absurd hl (hfits.apart g hg l hl')⟩
    obtain ⟨enters, leaves, placed, henters, hleaves, hplaced⟩ :=
      exists_placement hs.claimed hclaims
    exact ⟨_, loads_loadFunction_iff.2 ⟨hname.2 hfits.name, hfits.ends, s₁, enters, leaves, placed,
      hclaims, henters, hleaves, hplaced, rfl⟩⟩

end Step

/-! ## Functions one after the other -/

/-- Functions have different names and labels apart, all labels have a text, and no function enters
where it leaves. -/
structure Compatible (fs : List SourceFunction) : Prop where
  names : (fs.map SourceFunction.name).Nodup
  ends : ∀ f ∈ fs, f.entry ≠ f.exit
  labelled : ∀ f ∈ fs, ∀ l ∈ f.labels, l ≠ ""
  apart : fs.Pairwise fun f g => ∀ l ∈ f.labels, l ∉ g.labels

theorem compatible_nil : Compatible [] where
  names := List.nodup_nil
  ends _ h := nomatch h
  labelled _ h := nomatch h
  apart := .nil

theorem Compatible.of_append {fs gs : List SourceFunction} (h : Compatible (fs ++ gs)) :
    Compatible fs where
  names := by
    have hnames := h.names
    rw [List.map_append] at hnames
    exact (List.nodup_append.1 hnames).1
  ends f hf := h.ends f (List.mem_append_left _ hf)
  labelled f hf := h.labelled f (List.mem_append_left _ hf)
  apart := (List.pairwise_append.1 h.apart).1

theorem compatible_concat {fs : List SourceFunction} {f : SourceFunction} :
    Compatible (fs ++ [f]) ↔ Compatible fs ∧ f.FitsAfter fs := by
  constructor
  · intro h
    have hmem : f ∈ fs ++ [f] := List.mem_append_right _ List.mem_cons_self
    have hnames := h.names
    rw [List.map_append, List.map_singleton, List.nodup_append] at hnames
    refine ⟨h.of_append, ⟨fun hname => ?_, h.ends f hmem, h.labelled f hmem, fun g hg => ?_⟩⟩
    · exact hnames.2.2 _ hname _ List.mem_cons_self rfl
    · exact (List.pairwise_append.1 h.apart).2.2 g hg f List.mem_cons_self
  · rintro ⟨h, hfits⟩
    constructor
    case names =>
      rw [List.map_append, List.map_singleton, List.nodup_append]
      refine ⟨h.names, List.pairwise_singleton _ _, fun a ha b hb hab => hfits.name ?_⟩
      rwa [← List.mem_singleton.1 hb, ← hab]
    case ends =>
      exact List.forall_mem_append.2 ⟨h.ends, List.forall_mem_singleton.2 hfits.ends⟩
    case labelled =>
      exact List.forall_mem_append.2 ⟨h.labelled, List.forall_mem_singleton.2 hfits.labelled⟩
    case apart =>
      refine List.pairwise_append.2 ⟨h.apart, List.pairwise_singleton _ _, fun g hg => ?_⟩
      exact List.forall_mem_singleton.2 (hfits.apart g hg)

section Run

variable {s s' : Loading} {fs rest : List SourceFunction} {u : Unit}

theorem loads_loadFunctions_holds (hs : s.Holds fs) (h : Loads (loadFunctions rest) s u s') :
    s'.Holds (fs ++ rest) := by
  induction rest generalizing s fs with
  | nil =>
    obtain ⟨-, rfl⟩ := loads_pure.1 h
    rwa [List.append_nil]
  | cons f rest ih =>
    obtain ⟨_, s₁, hfirst, hrest⟩ := loads_bind.1 h
    have hholds := ih (loads_loadFunction_holds hs hfirst) hrest
    rwa [List.append_assoc] at hholds

theorem exists_loads_loadFunctions_iff (hs : s.Holds fs) (hfs : Compatible fs) :
    (∃ s', Loads (loadFunctions rest) s u s') ↔ Compatible (fs ++ rest) := by
  induction rest generalizing s fs with
  | nil =>
    rw [List.append_nil]
    exact ⟨fun _ => hfs, fun _ => ⟨s, loads_pure.2 ⟨rfl, rfl⟩⟩⟩
  | cons f rest ih =>
    rw [List.append_cons]
    simp only [loadFunctions, loads_bind]
    constructor
    · rintro ⟨s', _, s₁, hfirst, hrest⟩
      have hfits := (exists_loads_loadFunction_iff hs).1 ⟨s₁, hfirst⟩
      exact (ih (loads_loadFunction_holds hs hfirst) (compatible_concat.2 ⟨hfs, hfits⟩)).1
        ⟨s', hrest⟩
    · intro h
      have hfits := (compatible_concat.1 h.of_append).2
      obtain ⟨s₁, hfirst⟩ := (exists_loads_loadFunction_iff (u := ()) hs).2 hfits
      obtain ⟨s', hrest⟩ := (ih (loads_loadFunction_holds hs hfirst)
        (compatible_concat.2 ⟨hfs, hfits⟩)).2 h
      exact ⟨s', (), s₁, hfirst, hrest⟩

end Run

/-- The state in which a program was loaded holds its functions. -/
theorem holds_of_load {source : SourceProgram} {supply : LocSupply} {program : Program}
    (h : (source.load supply).result = .ok program) :
    ∃ s : Loading, s.Holds source.functions ∧ program = ⟨s.flow, s.labels⟩ ∧
      (source.load supply).supply = s.supply := by
  obtain ⟨s, hrun, hsupply⟩ := loads_of_load h
  obtain ⟨-, hfunctions, -, hprogram⟩ := loads_loadProgram.1 hrun
  exact ⟨s, loads_loadFunctions_holds holds_start hfunctions, hprogram, hsupply⟩

theorem compatible_of_load {source : SourceProgram} {supply : LocSupply} {program : Program}
    (h : (source.load supply).result = .ok program) : Compatible source.functions := by
  obtain ⟨s, hrun, -⟩ := loads_of_load h
  obtain ⟨-, hfunctions, -⟩ := loads_loadProgram.1 hrun
  exact (exists_loads_loadFunctions_iff holds_start compatible_nil).1 ⟨s, hfunctions⟩

/-! ## Entries -/

section Entry

variable {s : Loading} {fs : List SourceFunction} {f : SourceFunction} {l : String}

theorem Loading.Holds.owner_unique (hs : s.Holds fs) {o o' : String} (h : (l, o) ∈ claims fs)
    (h' : (l, o') ∈ claims fs) : o = o' := by
  rw [← hs.claimed.owners] at h h'
  exact Option.some.inj (h.symm.trans h')

/-- An edge to the location of a label comes from a label of the same function. -/
theorem Loading.Holds.claimed_src (hs : s.Holds fs) {e : Edge Loc Stmt} (he : e ∈ s.flow.edges)
    {o : String} (hl : (l, o) ∈ claims fs) (hloc : s.labels.get? l = some e.dst) :
    ∃ l', (l', o) ∈ claims fs ∧ s.labels.get? l' = some e.src := by
  obtain ⟨e', he', hplaced⟩ := exists_mem_of_forall₂ hs.edges he
  obtain ⟨g, hg, heg⟩ := List.mem_flatMap.1 he'
  obtain ⟨hsrc, hdst⟩ := SourceFunction.ends_mem_labels heg
  obtain rfl := hs.numbers.injective hplaced.dst hloc
  have howner := hs.owner_unique (mem_claims.2 ⟨g, hg, hdst, rfl⟩) hl
  exact ⟨e'.src, mem_claims.2 ⟨g, hg, hsrc, howner⟩, hplaced.src⟩

/-- The entry of a function has the smallest number of all its labels. -/
theorem Loading.Holds.rank_entry_le (hs : s.Holds fs) (hfs : Compatible fs) (hf : f ∈ fs)
    {enters loc : Loc} (hentry : s.labels.get? f.entry = some enters)
    (hl : l ∈ f.labels) (hloc : s.labels.get? l = some loc) :
    loc.isSentinel = true ∨ enters.rank ≤ loc.rank := by
  obtain ⟨before, after, rfl⟩ := List.append_of_mem hf
  have hmentions : mentions (before ++ f :: after) =
      mentions before ++ f.entry :: (f.labels.tail ++ mentions after) := by
    simp [mentions, SourceFunction.labels]
  have hnumbers := hs.numbers
  rw [hmentions] at hnumbers
  have hnew : l ∉ mentions before := by
    intro hmem
    obtain ⟨g, hg, hlg⟩ := mem_mentions.1 hmem
    exact (List.pairwise_append.1 hfs.apart).2.2 g hg f List.mem_cons_self l hlg hl
  cases loc with
  | entry => exact .inl rfl
  | exit => exact .inl rfl
  | id k =>
    refine .inr ?_
    cases enters with
    | entry => exact Nat.zero_le _
    | exit => exact Nat.le_add_left 1 (k + 1)
    | id n => exact Nat.add_le_add_right (hnumbers.le_of_notMem hentry hloc hnew) 2

end Entry

/-- Of the locations that lead to the entry of a function, none comes before it but the
sentinels. -/
theorem rank_entry_le {source : SourceProgram} {supply : LocSupply} {program : Program}
    (hload : (source.load supply).result = .ok program) {fn : Function}
    (hfn : fn ∈ program.flow.functions) {loc : Loc}
    (hreach : program.flow.graph.Reaches loc fn.entry) :
    loc.isSentinel = true ∨ fn.entry.rank ≤ loc.rank := by
  obtain ⟨s, hs, rfl, -⟩ := holds_of_load hload
  have hfs := compatible_of_load hload
  obtain ⟨f, hf, hplaced⟩ := exists_mem_of_forall₂ hs.functions hfn
  -- backwards along the path, every location is that of a label of the function
  have hclaimed : ∃ l, (l, f.name) ∈ claims source.functions ∧ s.labels.get? l = some loc := by
    induction hreach using Relation.ReflTransGen.head_induction_on with
    | refl => exact ⟨f.entry, mem_claims.2 ⟨f, hf, List.mem_cons_self, rfl⟩, hplaced.entry⟩
    | head hlead _ ih =>
      obtain ⟨e, hedge, rfl, rfl⟩ := hlead
      obtain ⟨l, hl, hloc⟩ := ih
      exact hs.claimed_src hedge hl hloc
  obtain ⟨l, hl, hloc⟩ := hclaimed
  obtain ⟨g, hg, hlg, hname⟩ := mem_claims.1 hl
  obtain rfl := List.inj_on_of_nodup_map hfs.names hg hf hname
  exact hs.rank_entry_le hfs hf hplaced.entry hlg hloc

end Demanded
