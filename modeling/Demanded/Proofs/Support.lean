import Demanded.Proofs.Insertion
import Demanded.Proofs.NormalForm
import Demanded.Proofs.Runs

/-!
# Why final states solve their equations

The state at a location should be what its statements make of the states at their sources:
`Skeleton.update` computes it from the cells, and a location is settled if its own state is the
result.  A loop head can become final while states inside its loop are still to be computed again,
so it does not suffice to look at one location.

A set of locations supports a state up to some heads if each member is one of the heads, or is
settled and has its sources in the set.  A run keeps, for the cells that can be used, that their
states are supported up to the heads on which they are said to depend (`Run.sustains`).  An
exception is made for a set of tainted heads, whose state has changed in the pass: a state that
depends on one of them is not final at the end of the pass.

Computing a settled location again gives the same state.  So what a set supports is lost only with
the state of a head up to which it is supported, and then this head is tainted.
-/

namespace Demanded

/-! ## Equations -/

/-- What statements make of the states at their sources, joined. -/
def joinStates (c : Cells) (inputs : List (Loc × Stmt)) (acc : State) : State :=
  inputs.foldl (fun acc input => acc.join ((c.iterate input.1).interpret input.2)) acc

theorem state_joined (V : OrdSet Loc) (c : Cells) (inputs : List (Loc × Stmt)) (acc : Answer) :
    (joined V c inputs acc).state = joinStates c inputs acc.state := by
  induction inputs generalizing acc with
  | nil => rfl
  | cons input rest ih =>
    rw [joined, List.foldl_cons]
    refine (ih _).trans ?_
    rw [joinStates, joinStates, List.foldl_cons, Answer.absorb, state_reply]

theorem joinStates_congr {c c' : Cells} {inputs : List (Loc × Stmt)}
    (h : ∀ input ∈ inputs, c'.iterate input.1 = c.iterate input.1) (acc : State) :
    joinStates c' inputs acc = joinStates c inputs acc := by
  induction inputs generalizing acc with
  | nil => rfl
  | cons input rest ih =>
    obtain ⟨hhead, hrest⟩ := List.forall_mem_cons.1 h
    rw [joinStates, joinStates, List.foldl_cons, List.foldl_cons, hhead]
    exact ih hrest _

theorem joinStates_eq_foldl (c : Cells) (inputs : List (Loc × Stmt)) (acc : State) :
    joinStates c inputs acc =
      (inputs.map fun input => (c.iterate input.1).interpret input.2).foldl State.join acc :=
  List.foldl_map.symm

theorem normal_interpreted {c : Cells} (hc : ∀ loc, (c.iterate loc).Normal)
    (inputs : List (Loc × Stmt)) :
    ∀ s ∈ inputs.map fun input => (c.iterate input.1).interpret input.2, s.Normal :=
  List.forall_mem_map.2 fun input _ => State.normal_interpret (hc input.1) input.2

theorem normal_joinStates {c : Cells} (hc : ∀ loc, (c.iterate loc).Normal)
    (inputs : List (Loc × Stmt)) {acc : State} (hacc : acc.Normal) :
    (joinStates c inputs acc).Normal := by
  rw [joinStates_eq_foldl]
  exact State.normal_foldl_join (normal_interpreted hc inputs) hacc

/-- A state is joined to what comes before and after it. -/
theorem implies_joinStates {c : Cells} (hc : ∀ loc, (c.iterate loc).Normal)
    {inputs : List (Loc × Stmt)} {acc : State} (hacc : acc.Normal) {s : State} (hs : s.Normal)
    (h : s.implies acc = true ∨
      ∃ input ∈ inputs, s = (c.iterate input.1).interpret input.2) :
    s.implies (joinStates c inputs acc) = true := by
  rw [joinStates_eq_foldl]
  obtain ⟨hfirst, hrest⟩ := (State.foldl_join_implies_iff (normal_interpreted hc inputs) hacc).1
    (State.implies_refl _)
  rcases h with h | ⟨input, hmem, rfl⟩
  · exact State.implies_trans hs h hfirst
  · exact hrest _ (List.mem_map_of_mem hmem)

namespace Skeleton

variable (sk : Skeleton) (c : Cells) (loc : Loc)

/-- What enters a location, according to the cells. -/
def entering : State := joinStates c (sk.forwardInputs loc) (sk.start loc).state

/-- What loops back to a location, according to the cells. -/
def looping : State := joinStates c (sk.backInputs loc) .bottom

/-- The state at a location, computed anew from the cells. -/
def update : State :=
  if loc ∈ sk.heads.toList then
    (c.iterate loc).widen ((sk.entering c loc).join (sk.looping c loc))
  else sk.entering c loc

/-- The state of the location is what is computed from the cells. -/
structure Settled : Prop where
  update_eq : sk.update c loc = c.iterate loc
  seeded : loc ∈ sk.heads.toList → (c.get? loc).isSome

variable {sk c loc} {c' : Cells}

theorem normal_start (sk : Skeleton) (loc : Loc) : (sk.start loc).state.Normal := by
  unfold start
  split
  · exact State.normal_top
  · exact State.normal_bottom

theorem normal_entering (hc : ∀ x, (c.iterate x).Normal) : (sk.entering c loc).Normal :=
  normal_joinStates hc _ (normal_start sk loc)

theorem normal_looping (hc : ∀ x, (c.iterate x).Normal) : (sk.looping c loc).Normal :=
  normal_joinStates hc _ State.normal_bottom

theorem update_congr (hin : ∀ input ∈ sk.inputs loc, c'.iterate input.1 = c.iterate input.1)
    (hloc : loc ∈ sk.heads.toList → c'.iterate loc = c.iterate loc) :
    sk.update c' loc = sk.update c loc := by
  have hforward : sk.entering c' loc = sk.entering c loc :=
    joinStates_congr (fun input hmem => hin input (mem_of_mem_forwardInputs hmem)) _
  have hback : sk.looping c' loc = sk.looping c loc :=
    joinStates_congr (fun input hmem => hin input (mem_of_mem_backInputs hmem)) _
  unfold update
  split
  · rename_i hhead
    rw [hforward, hback, hloc hhead]
  · exact hforward

theorem AgreesAt.update {sk' : Skeleton} (h : sk.AgreesAt sk' loc) :
    sk.update c loc = sk'.update c loc := by
  have hforward : sk.forwardInputs loc = sk'.forwardInputs loc := by
    simp only [forwardInputs, h.inputs, h.isBack]
  have hback : sk.looping c loc = sk'.looping c loc := by
    simp only [looping, backInputs, h.inputs, h.isBack]
  have hentering : sk.entering c loc = sk'.entering c loc := by
    rw [entering, entering, hforward, start, start, h.isRoot]
  simp only [Skeleton.update, hentering, hback, h.heads]

end Skeleton

/-! ## Support -/

section Support

variable {sk : Skeleton} {c c' : Cells} {pending : OrdSet Loc} {S : Loc → Prop} {loc : Loc}

/-- Each member of the set is one of the given heads, or is settled and has its sources in the
set. -/
def Supports (sk : Skeleton) (c : Cells) (pending : OrdSet Loc) (S : Loc → Prop) : Prop :=
  ∀ loc, S loc → loc ∈ pending.toList ∨
    (sk.Settled c loc ∧ ∀ input ∈ sk.inputs loc, S input.1)

/-- The state at a location is supported up to the given heads. -/
def Supported (sk : Skeleton) (c : Cells) (pending : OrdSet Loc) (loc : Loc) : Prop :=
  ∃ S, Supports sk c pending S ∧ S loc

theorem supported_of_mem (h : loc ∈ pending.toList) : Supported sk c pending loc :=
  ⟨fun x => x = loc, fun _ hx => .inl (hx ▸ h), rfl⟩

/-- Cells with the same states in the set support the same. -/
theorem Supports.congr (h : Supports sk c pending S)
    (hstate : ∀ x, S x → c'.iterate x = c.iterate x)
    (hkeep : ∀ x, S x → (c.get? x).isSome → (c'.get? x).isSome) : Supports sk c' pending S := by
  intro x hx
  refine (h x hx).imp id fun ⟨hsettled, hin⟩ => ⟨⟨?_, ?_⟩, hin⟩
  · rw [hstate x hx, ← hsettled.update_eq]
    exact Skeleton.update_congr (fun input hmem => hstate _ (hin input hmem)) fun _ => hstate x hx
  · exact fun hhead => hkeep x hx (hsettled.seeded hhead)

theorem iterate_insert_self (c : Cells) (loc : Loc) (cell : Cell) :
    Cells.iterate (c.insert loc cell) loc = cell.value :=
  Cells.iterate_of_get? (OrdMap.get?_insert_self _ _ _)

theorem iterate_insert_of_ne (c : Cells) (cell : Cell) {x : Loc} (h : x ≠ loc) :
    Cells.iterate (c.insert loc cell) x = c.iterate x :=
  Cells.iterate_eq_of_get? (OrdMap.get?_insert_of_ne _ _ h)

theorem Supports.insert {cell : Cell} (h : Supports sk c pending S)
    (hloc : S loc → cell.value = c.iterate loc) : Supports sk (c.insert loc cell) pending S := by
  refine h.congr (fun x hx => ?_) fun x hx hsome => ?_
  · by_cases he : x = loc
    · subst he
      rw [iterate_insert_self, hloc hx]
    · exact iterate_insert_of_ne c cell he
  · by_cases he : x = loc
    · subst he
      rw [OrdMap.get?_insert_self]
      rfl
    · rwa [OrdMap.get?_insert_of_ne _ _ he]

/-- Computing a location again changes a state in the set only if the location is one of the
heads. -/
theorem Supports.update_eq (h : Supports sk c pending S) (hloc : S loc)
    (hne : sk.update c loc ≠ c.iterate loc) : loc ∈ pending.toList :=
  (h loc hloc).resolve_right fun hs => hne hs.1.update_eq

/-- With a state computed from the cells the location is supported, unless it depends on a tainted
head.  `P` has the heads on which the states at the sources depend. -/
theorem supported_insert {T : Loc → Prop} {cell : Cell} {P : Loc → OrdSet Loc}
    (hval : cell.value = sk.update c loc)
    (hhead : loc ∈ sk.heads.toList → cell.value = c.iterate loc)
    (hin : ∀ input ∈ sk.inputs loc,
      (∃ h ∈ (P input.1).toList, T h) ∨ Supported sk c (P input.1) input.1)
    (hP : ∀ input ∈ sk.inputs loc, ∀ x ∈ (P input.1).toList,
      x ∈ cell.pending.toList ∨ (x = loc ∧ cell.value = c.iterate loc ∧ ¬T loc)) :
    (∃ h ∈ cell.pending.toList, T h ∨ (h = loc ∧ cell.value ≠ c.iterate loc)) ∨
      Supported sk (c.insert loc cell) cell.pending loc := by
  refine Classical.or_iff_not_imp_left.2 fun hclean => ?_
  have hclean : ∀ h ∈ cell.pending.toList, ¬T h ∧ (h = loc → cell.value = c.iterate loc) :=
    fun h hh => ⟨fun ht => hclean ⟨h, hh, .inl ht⟩,
      fun he => Classical.byContradiction fun hne => hclean ⟨h, hh, .inr ⟨he, hne⟩⟩⟩
  -- no source depends on a tainted head, so there is a set for each of them; it remains supported
  have hsets : ∀ input ∈ sk.inputs loc, ∃ S, S input.1 ∧ (S loc → cell.value = c.iterate loc) ∧
      Supports sk (c.insert loc cell) (P input.1) S := by
    intro input hmem
    obtain ⟨S, hS, hinput⟩ := (hin input hmem).resolve_left fun ⟨h, hh, ht⟩ =>
      (hP input hmem h hh).elim (fun hc => (hclean h hc).1 ht) fun ⟨he, _, hn⟩ => hn (he ▸ ht)
    have hagree : S loc → cell.value = c.iterate loc := by
      intro hloc
      refine Classical.byContradiction fun hne => hne ?_
      rcases hP input hmem loc (hS.update_eq hloc (hval ▸ hne)) with hc | hc
      · exact (hclean loc hc).2 rfl
      · exact hc.2.1
    exact ⟨S, hinput, hagree, hS.insert hagree⟩
  have hsettled : sk.Settled (c.insert loc cell) loc := by
    refine ⟨?_, fun _ => by rw [OrdMap.get?_insert_self]; rfl⟩
    rw [iterate_insert_self, hval]
    refine Skeleton.update_congr (fun input hmem => ?_) fun hh => ?_
    · by_cases he : input.1 = loc
      · obtain ⟨S, hinput, hagree, -⟩ := hsets input hmem
        rw [he, iterate_insert_self, hagree (he ▸ hinput)]
      · exact iterate_insert_of_ne c cell he
    · rw [iterate_insert_self, hhead hh]
  refine ⟨fun x => x = loc ∨ ∃ input ∈ sk.inputs loc, ∃ S : Loc → Prop, S x ∧
    Supports sk (c.insert loc cell) (P input.1) S, ?_, .inl rfl⟩
  have hsources : ∀ input ∈ sk.inputs loc, input.1 = loc ∨ ∃ input' ∈ sk.inputs loc,
      ∃ S : Loc → Prop, S input.1 ∧ Supports sk (c.insert loc cell) (P input'.1) S := by
    intro input hmem
    obtain ⟨S, hinput, -, hS⟩ := hsets input hmem
    exact .inr ⟨input, hmem, S, hinput, hS⟩
  rintro x (rfl | ⟨input, hmem, S, hx, hS⟩)
  · exact .inr ⟨hsettled, hsources⟩
  · rcases hS x hx with hp | ⟨hs, hclosed⟩
    · rcases hP input hmem x hp with hc | ⟨rfl, -⟩
      · exact .inl hc
      · exact .inr ⟨hsettled, hsources⟩
    · exact .inr ⟨hs, fun input' hmem' => .inr ⟨input, hmem, S, hclosed input' hmem', hS⟩⟩

end Support

/-! ## The invariant of a pass -/

section Pass

variable {sk : Skeleton} {pass : Nat} {V V' : OrdSet Loc} {T T' : Loc → Prop} {c c' : Cells}

/-- States are normal, those in cells that can be used are supported up to the heads on which they
are said to depend or depend on a tainted head, and the tainted heads were computed in the pass. -/
structure Sustained (sk : Skeleton) (pass : Nat) (V : OrdSet Loc) (T : Loc → Prop) (c : Cells) :
    Prop where
  normal : ∀ loc cell, c.get? loc = some cell → cell.value.Normal
  supported : ∀ loc cell, loc ∉ V.toList → c.Usable pass loc cell →
    (∃ h ∈ cell.pending.toList, T h) ∨ Supported sk c cell.pending loc
  active : ∀ h, T h → h ∈ V.toList ∨ c.Fresh pass h

namespace Sustained

theorem normal_iterate (h : Sustained sk pass V T c) (loc : Loc) : (c.iterate loc).Normal := by
  cases hget : c.get? loc with
  | none =>
    rw [Cells.iterate, Cells.value?, hget]
    trivial
  | some cell =>
    rw [Cells.iterate_of_get? hget]
    exact h.normal loc cell hget

theorem reply (h : Sustained sk pass V T c) {loc : Loc} (hr : Ready pass V c loc) :
    (∃ x ∈ (reply V c loc).pending.toList, T x) ∨
      Supported sk c (Demanded.reply V c loc).pending loc := by
  by_cases hvis : loc ∈ V.toList
  · rw [reply_of_mem hvis]
    exact .inr (supported_of_mem (OrdSet.mem_singleton.2 rfl))
  · obtain ⟨cell, hu⟩ := hr.resolve_left hvis
    rw [reply_of_get? hvis hu.1]
    exact h.supported loc cell hvis hu

theorem enter (h : Sustained sk pass V T c) (loc : Loc) : Sustained sk pass (V.add loc) T c where
  normal := h.normal
  supported x cell hx hu := h.supported x cell (fun hv => hx (OrdSet.mem_add.2 (.inr hv))) hu
  active x hx := (h.active x hx).imp (fun hv => OrdSet.mem_add.2 (.inr hv)) id

/-- Keeping a state of the pass.  A set that supports another state must not lose its support, or
that state depends on a head that is tainted now. -/
theorem insert (h : Sustained sk pass V T c) {loc : Loc} {cell : Cell} (hpass : cell.pass = pass)
    (hV : ∀ x, x ∈ V.toList → x = loc ∨ x ∈ V'.toList) (hT : ∀ x, T x → T' x)
    (hT' : ∀ x, T' x → T x ∨ x = loc) (hnormal : cell.value.Normal)
    (hold : ∀ x old S, c.Usable pass x old → x ≠ loc → Supports sk c old.pending S → S loc →
      (∃ h ∈ old.pending.toList, T' h) ∨ cell.value = c.iterate loc)
    (hnew : loc ∉ V'.toList →
      (∃ h ∈ cell.pending.toList, T' h) ∨ Supported sk (c.insert loc cell) cell.pending loc) :
    Sustained sk pass V' T' (c.insert loc cell) where
  normal x old hget := by
    by_cases hx : x = loc
    · subst hx
      rw [OrdMap.get?_insert_self, Option.some.injEq] at hget
      exact hget ▸ hnormal
    · rw [OrdMap.get?_insert_of_ne _ _ hx] at hget
      exact h.normal x old hget
  supported x old hvis hu := by
    by_cases hx : x = loc
    · subst hx
      rw [Cells.Usable, OrdMap.get?_insert_self, Option.some.injEq] at hu
      exact hu.1 ▸ hnew hvis
    · have hu := (Cells.usable_insert_of_ne hx).1 hu
      rcases h.supported x old (fun hv => hvis ((hV x hv).resolve_left hx)) hu with
        ⟨h', hh', ht⟩ | ⟨S, hS, hSx⟩
      · exact .inl ⟨h', hh', hT h' ht⟩
      · by_cases hloc : S loc
        · exact (hold x old S hu hx hS hloc).imp id fun he => ⟨S, hS.insert fun _ => he, hSx⟩
        · exact .inr ⟨S, hS.insert fun hs => absurd hs hloc, hSx⟩
  active x hx := by
    rcases hT' x hx with ht | he
    · rcases h.active x ht with hv | hfresh
      · exact (hV x hv).symm.imp id fun he => Cells.fresh_insert hpass (.inr he)
      · exact .inr (Cells.fresh_insert hpass (.inl hfresh))
    · exact .inr (Cells.fresh_insert hpass (.inr he))

/-- Keeping the state that was computed from the cells, which taints its location if the state has
changed. -/
theorem insert_update (h : Sustained sk pass V T c) (loc : Loc) (cell : Cell)
    (hpass : cell.pass = pass) (hV : ∀ x, x ∈ V.toList → x = loc ∨ x ∈ V'.toList)
    (hnormal : cell.value.Normal) (hval : cell.value = sk.update c loc)
    (hnew : (∃ x ∈ cell.pending.toList, T x ∨ (x = loc ∧ cell.value ≠ c.iterate loc)) ∨
      Supported sk (c.insert loc cell) cell.pending loc) :
    Sustained sk pass V' (fun x => T x ∨ (x = loc ∧ cell.value ≠ c.iterate loc))
      (c.insert loc cell) := by
  refine h.insert hpass hV (fun x => .inl) (fun x => Or.imp id And.left) hnormal ?_ fun _ => hnew
  intro x old S hu hx hS hloc
  by_cases he : cell.value = c.iterate loc
  · exact .inr he
  · exact .inl ⟨loc, hS.update_eq hloc (hval ▸ he), .inr ⟨rfl, he⟩⟩

end Sustained

/-! ## Runs keep the invariant -/

/-- No cell that can be used depends on the head. -/
def Unused (pass : Nat) (c : Cells) (h : Loc) : Prop :=
  ∀ loc cell, c.Usable pass loc cell → h ∉ cell.pending.toList

theorem Unused.insert {h : Loc} (hc : Unused pass c h) (loc : Loc) (cell : Cell)
    (hcell : h ∉ cell.pending.toList) : Unused pass (c.insert loc cell) h := by
  intro x old hu
  by_cases hx : x = loc
  · subst hx
    rw [Cells.Usable, OrdMap.get?_insert_self, Option.some.injEq] at hu
    exact hu.1 ▸ hcell
  · exact hc x old ((Cells.usable_insert_of_ne hx).1 hu)

/-- A run whose answer does not depend on a head computes no state that does. -/
theorem Run.unused {task : Task} {a : Answer} {log : List Loc}
    (h : Run sk pass V task c a c' log) {x : Loc} (hx : x ∈ V.toList) (hc : Unused pass c x)
    (ha : x ∉ a.pending.toList) : Unused pass c' x := by
  induction h with
  | iterate hvis => exact hc
  | kept hvis hcell => exact hc
  | plain hvis hnone hplain henter ih => exact (ih hx hc ha).insert _ _ ha
  | @head V loc c c₁ c₂ entering looping a prev log₁ log₂ hvis hnone hhead henter hprev hloop hans
      ihe ihl =>
    have hne : x ≠ loc := fun he => hvis (he ▸ hx)
    have hx' : x ∈ (V.add loc).toList := OrdSet.mem_add.2 (.inr hx)
    subst hans
    have hpending : ¬(x ∈ entering.pending.toList ∨ x ∈ looping.pending.toList) :=
      fun hp => ha (Skeleton.mem_pending_headAnswer.2 (.inl ⟨hne, hp⟩))
    rw [not_or] at hpending
    have hstored := (ihe hx' hc hpending.1).insert loc ⟨prev, OrdSet.singleton loc, pass⟩
      fun hs => hne (OrdSet.mem_singleton.1 hs)
    exact (ihl hx' hstored hpending.2).insert _ _ ha
  | done => exact hc
  | step hask hrest ih ih' =>
    refine ih' hx (ih hx hc fun hp => ha ?_) ha
    rw [hrest.answered.2, mem_pending_joined, Answer.absorb, OrdSet.mem_union]
    exact .inl (.inr hp)

theorem joined_congr {inputs : List (Loc × Stmt)}
    (h : ∀ input ∈ inputs, reply V c' input.1 = reply V c input.1) (acc : Answer) :
    joined V c' inputs acc = joined V c inputs acc := by
  induction inputs generalizing acc with
  | nil => rfl
  | cons input rest ih =>
    obtain ⟨hhead, hrest⟩ := List.forall_mem_cons.1 h
    rw [joined, joined, List.foldl_cons, List.foldl_cons, hhead]
    exact ih hrest _

/-- What entered a loop is still what the cells say after the first iterate is kept and the rest of
the loop has run: the head is not its own forward input. -/
theorem Task.Answered.after_seed {inputs : List (Loc × Stmt)} {acc a : Answer} {loc : Loc}
    {cell : Cell} {c₁ c₂ : Cells} (h : (Task.join inputs acc).Answered pass V c₁ a)
    (hne : ∀ input ∈ inputs, input.1 ≠ loc) (hframe : Frame pass V (c₁.insert loc cell) c₂) :
    (Task.join inputs acc).Answered pass V c₂ a := by
  have hready : ∀ input ∈ inputs, Ready pass V (c₁.insert loc cell) input.1 := by
    intro input hmem
    refine (h.1 input hmem).imp id fun ⟨old, hu⟩ => ⟨old, ?_⟩
    exact (Cells.usable_insert_of_ne (hne input hmem)).2 hu
  refine ⟨fun input hmem => hframe.ready (hready input hmem), h.2.trans ?_⟩
  refine (joined_congr (fun input hmem => ?_) acc).symm
  have hget := OrdMap.get?_insert_of_ne c₁ cell (hne input hmem)
  rw [hframe.reply_eq (hready input hmem), reply, reply, hget,
    Cells.iterate_eq_of_get? hget]

theorem Skeleton.mem_inputs_cases {loc : Loc} {input : Loc × Stmt} (h : input ∈ sk.inputs loc) :
    input ∈ sk.forwardInputs loc ∨ input ∈ sk.backInputs loc := by
  cases hb : sk.isBack input.1 loc with
  | false => exact .inl (List.mem_filter.2 ⟨h, by rw [hb]; rfl⟩)
  | true => exact .inr (List.mem_filter.2 ⟨h, hb⟩)

/-- Keeping the first iterate of a loop head: it taints the head if the head was used before. -/
theorem Sustained.seed (h : Sustained sk pass V T c) {loc : Loc} (prev : State) (used : Prop)
    (hvis : loc ∈ V.toList) (hhead : loc ∈ sk.heads.toList)
    (hprev : ∀ s, c.value? loc = some s → prev = s) (hnormal : prev.Normal)
    (hused : ¬used → Unused pass c loc) :
    Sustained sk pass V (fun x => T x ∨ (x = loc ∧ c.value? loc = none ∧ used))
      (c.insert loc ⟨prev, OrdSet.singleton loc, pass⟩) := by
  refine h.insert rfl (fun x => .inr) (fun x => .inl) (fun x => Or.imp id And.left) hnormal ?_
    fun hnot => absurd hvis hnot
  intro x old S hu hx hS hloc
  cases hseen : c.value? loc with
  | some s =>
    refine .inr ?_
    show prev = c.iterate loc
    rw [hprev s hseen, Cells.iterate, hseen]
    rfl
  | none =>
    -- without an iterate the head is not settled, so the state depends on it
    have hget : c.get? loc = none := Option.map_eq_none_iff.1 hseen
    have hpending := (hS loc hloc).resolve_right fun hset => by
      simpa [hget] using hset.1.seeded hhead
    refine .inl ⟨loc, hpending, .inr ⟨rfl, rfl, ?_⟩⟩
    exact Classical.byContradiction fun hn => hused hn x old hu hpending

/-- What the heads that were tainted in a run can be. -/
def Spreads (V : OrdSet Loc) (T T' : Loc → Prop) : Prop :=
  (∀ x, T x → T' x) ∧ ∀ x, T' x → T x ∨ x ∉ V.toList

namespace Spreads

theorem refl (V : OrdSet Loc) (T : Loc → Prop) : Spreads V T T := ⟨fun _ hx => hx, fun _ => .inl⟩

theorem trans {T'' : Loc → Prop} (h : Spreads V T T') (h' : Spreads V T' T'') :
    Spreads V T T'' :=
  ⟨fun x hx => h'.1 x (h.1 x hx), fun x hx => (h'.2 x hx).elim (h.2 x) .inr⟩

/-- Tainting one more location that is not being computed. -/
theorem taint {loc : Loc} (hloc : loc ∉ V.toList) (p : Prop) :
    Spreads V T fun x => T x ∨ (x = loc ∧ p) := by
  refine ⟨fun _ => .inl, ?_⟩
  rintro x (hx | ⟨rfl, -⟩)
  · exact .inl hx
  · exact .inr hloc

theorem leave {loc : Loc} (h : Spreads (V.add loc) T T') : Spreads V T T' :=
  ⟨h.1, fun x hx => (h.2 x hx).imp id fun hn hv => hn (OrdSet.mem_add.2 (.inr hv))⟩

/-- A head that is being computed is tainted in a run only if it was before. -/
theorem of_mem (h : Spreads V T T') {x : Loc} (hx : x ∈ V.toList) (ht : T' x) : T x :=
  (h.2 x ht).resolve_right fun hn => hn hx

end Spreads

/-- The end of the computation of a location that is no loop head. -/
theorem Sustained.plain (hsk : sk.Regular) (h : Sustained sk pass V T c) {loc : Loc} {a : Answer}
    (hplain : loc ∉ sk.heads.toList)
    (ha : (Task.join (sk.forwardInputs loc)
      (sk.start loc)).Answered pass V c a) :
    Sustained sk pass V (fun x => T x ∨ (x = loc ∧ a.state ≠ c.iterate loc))
      (c.insert loc ⟨a.state, a.pending, pass⟩) := by
  obtain ⟨hready, ha⟩ := ha
  rw [hsk.plain loc hplain] at hready ha
  have hval : a.state = sk.update c loc := by
    rw [ha, state_joined, Skeleton.update, if_neg hplain, Skeleton.entering,
      hsk.plain loc hplain]
  have hnormal : a.state.Normal := by
    rw [ha, state_joined]
    exact normal_joinStates h.normal_iterate _ (Skeleton.normal_start _ loc)
  refine h.insert_update loc ⟨a.state, a.pending, pass⟩ rfl (fun x => .inr) hnormal hval ?_
  refine supported_insert (P := fun x => (Demanded.reply V c x).pending) hval
    (fun hh => absurd hh hplain) (fun input hmem => h.reply (hready input hmem))
    fun input hmem x hx => .inl ?_
  show x ∈ a.pending.toList
  rw [ha]
  exact mem_pending_joined.2 (.inr ⟨input, hmem, hx⟩)

/-- The end of the computation of a loop head. -/
theorem Sustained.head {loc : Loc} (h : Sustained sk pass (V.add loc) T c)
    {entering looping a : Answer} {seen : Option State} {prev : State}
    (hhead : loc ∈ sk.heads.toList) (hprev : c.iterate loc = prev)
    (hentering : (Task.join (sk.forwardInputs loc)
      (sk.start loc)).Answered pass (V.add loc) c entering)
    (hlooping : (Task.join (sk.backInputs loc) .bottom).Answered pass (V.add loc) c
      looping)
    (ha : a = Skeleton.headAnswer loc seen prev
      (prev.widen (entering.state.join looping.state)) entering.pending looping.pending)
    (hT : T loc ↔ seen = none ∧ loc ∈ entering.pending.toList) :
    Sustained sk pass V (fun x => T x ∨ (x = loc ∧ a.state ≠ c.iterate loc))
      (c.insert loc ⟨a.state, a.pending, pass⟩) := by
  obtain ⟨hready₁, hentering⟩ := hentering
  obtain ⟨hready₂, hlooping⟩ := hlooping
  have hnext : a.state = prev.widen (entering.state.join looping.state) := by rw [ha]; rfl
  have hpending : ∀ x, x ∈ a.pending.toList ↔
      (x ≠ loc ∧ (x ∈ entering.pending.toList ∨ x ∈ looping.pending.toList)) ∨
      (x = loc ∧
        ((seen = none ∧ loc ∈ entering.pending.toList) ∨ a.state.implies prev = false)) := by
    intro x
    rw [hnext, ha]
    exact Skeleton.mem_pending_headAnswer
  have hval : a.state = sk.update c loc := by
    rw [hnext, Skeleton.update, if_pos hhead, hprev, hentering, hlooping, state_joined,
      state_joined]
    rfl
  have hprevNormal : prev.Normal := hprev ▸ h.normal_iterate loc
  have hjoin : (entering.state.join looping.state).Normal := by
    rw [hentering, hlooping, state_joined, state_joined]
    exact State.normal_join (normal_joinStates h.normal_iterate _ (Skeleton.normal_start _ loc))
      (normal_joinStates h.normal_iterate _ State.normal_bottom)
  have hnormal : a.state.Normal := hnext ▸ State.normal_widen hprevNormal hjoin
  refine h.insert_update loc ⟨a.state, a.pending, pass⟩ rfl (fun x => OrdSet.mem_add.1) hnormal
    hval ?_
  by_cases hloc : loc ∈ a.pending.toList
  · -- the head itself is pending: either it was tainted before, or its state has changed
    refine .inl ⟨loc, hloc, ?_⟩
    rcases (hpending loc).1 hloc with ⟨hne, -⟩ | ⟨-, hflag | hflag⟩
    · exact absurd rfl hne
    · exact .inl (hT.2 hflag)
    · refine .inr ⟨rfl, fun he => ?_⟩
      have he : a.state = c.iterate loc := he
      rw [he, hprev, State.implies_refl] at hflag
      cases hflag
  · -- the head has converged
    have hflags : ¬((seen = none ∧ loc ∈ entering.pending.toList) ∨
        a.state.implies prev = false) := fun hf => hloc ((hpending loc).2 (.inr ⟨rfl, hf⟩))
    rw [not_or, Bool.not_eq_false] at hflags
    have hsame : a.state = c.iterate loc := by
      rw [hprev]
      refine State.implies_antisymm hnormal hprevNormal hflags.2 ?_
      rw [hnext]
      exact State.implies_widen_left hprevNormal _
    refine supported_insert (P := fun x => (Demanded.reply (V.add loc) c x).pending) hval
      (fun _ => hsame) (fun input hmem => h.reply ?_) fun input hmem x hx => ?_
    · exact (Skeleton.mem_inputs_cases hmem).elim (hready₁ input) (hready₂ input)
    · by_cases hx' : x = loc
      · exact .inr ⟨hx', hsame, fun ht => hflags.1 (hT.1 ht)⟩
      · refine .inl ((hpending x).2 (.inl ⟨hx', ?_⟩))
        rw [hentering, hlooping, mem_pending_joined, mem_pending_joined]
        exact (Skeleton.mem_inputs_cases hmem).imp (fun hm => .inr ⟨input, hm, hx⟩)
          fun hm => .inr ⟨input, hm, hx⟩

/-- A run keeps the invariant, and it taints none of the heads that are being computed. -/
theorem Run.sustains {task : Task} {a : Answer} {log : List Loc}
    (hsk : sk.Regular) (h : Run sk pass V task c a c' log)
    (hV : ∀ h ∈ V.toList, h ∈ sk.heads.toList) (ht : Tracked sk pass V c)
    (hs : Sustained sk pass V T c) :
    ∃ T', Sustained sk pass V T' c' ∧ Spreads V T T' := by
  induction h generalizing T with
  | iterate hvis => exact ⟨T, hs, .refl _ T⟩
  | kept hvis hcell => exact ⟨T, hs, .refl _ T⟩
  | plain hvis hnone hplain henter ih =>
    obtain ⟨T₁, hs₁, hspread⟩ := ih hV ht hs
    exact ⟨_, hs₁.plain hsk hplain henter.answered, hspread.trans (.taint hvis _)⟩
  | @head V loc c c₁ c₂ entering looping a prev log₁ log₂ hvis hnone hhead henter hprev hloop ha
      ihe ihl =>
    have hmem : loc ∈ (V.add loc).toList := OrdSet.mem_add.2 (.inl rfl)
    have hV' : ∀ h ∈ (V.add loc).toList, h ∈ sk.heads.toList := by
      intro h hh
      rcases OrdSet.mem_add.1 hh with rfl | hh
      · exact hhead
      · exact hV h hh
    have hinactive : ¬(loc ∈ V.toList ∨ c.Fresh pass loc) := by
      rintro (hv | hfresh)
      · exact hvis hv
      · obtain ⟨cell, hu⟩ := hfresh.usable
        exact hnone cell hu
    have hunused : Unused pass c loc := fun x cell hu hp => hinactive (ht x cell hu loc hp).active
    obtain ⟨T₁, hs₁, hspread₁⟩ := ihe hV' (ht.enter loc) (hs.enter loc)
    have hT₁ : ¬T₁ loc := fun hx => hinactive (hs.active loc (hspread₁.of_mem hmem hx))
    -- what the head had before is still there when its first iterate is kept
    have hseen : c₁.value? loc = c.value? loc := by
      rw [Cells.value?, Cells.value?, henter.frame.visiting loc hmem]
    have hnormal : prev.Normal := by
      rw [hprev]
      cases hval : c.value? loc with
      | none =>
        show entering.state.Normal
        rw [henter.answered.2, state_joined]
        exact normal_joinStates hs₁.normal_iterate _ (Skeleton.normal_start _ loc)
      | some s =>
        obtain ⟨cell, hcell, rfl⟩ := Option.map_eq_some_iff.1 hval
        exact hs.normal loc cell hcell
    have hseed := hs₁.seed prev (loc ∈ entering.pending.toList) hmem hhead
      (fun s hs => by rw [hprev, ← hseen, hs]; rfl) hnormal (henter.unused hmem hunused)
    obtain ⟨T₂, hs₂, hspread₂⟩ :=
      ihl hV' ((henter.tracked hV' (ht.enter loc)).seed hmem hhead prev) hseed
    rw [hseen] at hspread₂
    have hiterate : c₂.iterate loc = prev := by
      rw [Cells.iterate_eq_of_get? (hloop.frame.visiting loc hmem), iterate_insert_self]
    have hT₂ : T₂ loc ↔ c.value? loc = none ∧ loc ∈ entering.pending.toList := by
      refine ⟨fun hx => ?_, fun hx => hspread₂.1 loc (.inr ⟨rfl, hx⟩)⟩
      exact (hspread₂.of_mem hmem hx).elim (absurd · hT₁) And.right
    refine ⟨_, hs₂.head hhead hiterate (henter.answered.after_seed (hsk.apart loc) hloop.frame)
      hloop.answered ha hT₂, ?_⟩
    exact ((hspread₁.leave.trans (.taint hvis _)).trans hspread₂.leave).trans (.taint hvis _)
  | done => exact ⟨T, hs, .refl _ T⟩
  | step hask hrest ih ih' =>
    obtain ⟨T₁, hs₁, hspread₁⟩ := ih hV ht hs
    obtain ⟨T₂, hs₂, hspread₂⟩ := ih' hV (hask.tracked hV ht) hs₁
    exact ⟨T₂, hs₂, hspread₁.trans hspread₂⟩

end Pass

end Demanded
