import Demanded.Proofs.IntervalOperators
import Demanded.Proofs.NormalForm

/-!
# Statements follow executions

If a state allows a store, then what `State.interpret` makes of the state allows every store that
the statement may leave behind (`State.sat_interpret`, and `State.transfer_sound` with the values of
expressions).  Guards are refined along the structure of the condition, so `State.sat_assume` goes
by induction over conditions, for both truth values at once.
-/

namespace Demanded

/-! ## Keys -/

theorem dropBeginning?_eq_some {bs cs rest : List Char} :
    dropBeginning? bs cs = some rest ↔ cs = bs ++ rest := by
  induction bs generalizing cs with
  | nil => simp [dropBeginning?]
  | cons b bs ih =>
    cases cs with
    | nil => simp [dropBeginning?]
    | cons c cs =>
      rw [dropBeginning?]
      split
      · rename_i h
        simp [ih, h]
      · rename_i h
        simp [Ne.symm h]

theorem toList_fieldKey (var field : String) :
    (fieldKey var field).toList = (var.toList ++ ['.']) ++ field.toList := by
  simp [fieldKey]

theorem fieldOfKey?_eq_some {var key field : String} :
    fieldOfKey? var key = some field ↔ key = fieldKey var field := by
  simp only [fieldOfKey?, Option.map_eq_some_iff, dropBeginning?_eq_some]
  constructor
  · rintro ⟨rest, hrest, rfl⟩
    refine String.toList_injective ?_
    rw [hrest, toList_fieldKey, String.toList_ofList]
  · rintro rfl
    exact ⟨field.toList, toList_fieldKey var field, String.ofList_toList⟩

theorem fieldOfKey?_eq_none {var key : String} :
    fieldOfKey? var key = none ↔ ∀ field, key ≠ fieldKey var field := by
  rw [Option.eq_none_iff_forall_ne_some]
  exact forall_congr' fun field => not_congr fieldOfKey?_eq_some

theorem fieldKey_ne (var field : String) : fieldKey var field ≠ var := by
  intro h
  have hlength := congrArg (fun key => key.toList.length) h
  simp only [toList_fieldKey, List.length_append, List.length_cons, List.length_nil] at hlength
  omega

/-- An expression with a key has the value of its cell. -/
theorem Expr.Yields.eq_of_key? {σ : Store} {e : Expr} {key : String} {v : Int}
    (h : e.Yields σ v) (hkey : e.key? = some key) : v = σ key := by
  unfold Expr.key? at hkey
  split at hkey
  · cases hkey
    exact h
  · cases hkey
    exact h
  · cases hkey

namespace State

variable {s : State} {σ σ' : Store}

theorem isBottom_of_sat (hs : s.Sat σ) : s.isBottom = false := by
  cases s with
  | bottom => exact absurd hs (not_sat_bottom σ)
  | env m => rfl

/-! ## Expressions -/

theorem holds_eval (hs : s.Sat σ) {e : Expr} {v : Int} (h : e.Yields σ v) :
    (s.eval e).Holds v := by
  have hbottom := isBottom_of_sat hs
  fun_induction eval s e generalizing v with
  | case1 name => exact h ▸ hs name
  | case2 w hb => simp [hb] at hbottom
  | case3 w hb => exact Interval.holds_constant.2 h
  | case4 b hb => simp [hb] at hbottom
  | case5 b hb =>
    refine Interval.holds_constant.2 (Eq.trans h ?_)
    cases b <;> rfl
  | case6 hb => simp [hb] at hbottom
  | case7 hb => exact Interval.holds_top v
  | case8 op lhs rhs ihl ihr =>
    obtain ⟨a, b, ha, hb, hop⟩ := h
    exact Interval.holds_evalBinary (ihl ha) (ihr hb) hop
  | case9 op operand ih =>
    obtain ⟨a, ha, hop⟩ := h
    exact Interval.holds_evalUnary (ih ha) hop
  | case10 name f => exact h ▸ hs (fieldKey name f)
  | _ => simp_all

/-! ## Guards -/

theorem sat_restrict (hs : s.Sat σ) {e : Expr} {v : Int} (hv : e.Yields σ v) {a : Interval}
    (ha : a.Holds v) : (s.restrict e a).Sat σ := by
  unfold restrict
  split
  · rename_i key hkey
    exact sat_set_of_holds hs (hv.eq_of_key? hkey ▸ ha)
  · exact hs

theorem isComparison_of_polarized {op assumed : BinaryOp} {polarity : Bool}
    (hop : polarized op polarity = some assumed) (hcomparison : op.isComparison = true) :
    assumed.isComparison = true := by
  cases polarity with
  | true =>
    cases hop
    exact hcomparison
  | false => exact (BinaryOp.isComparison_of_negate? hop).2

theorem test_of_polarized {op assumed : BinaryOp} {polarity : Bool}
    (hop : polarized op polarity = some assumed) {a b : Int} (h : op.test a b = polarity) :
    assumed.test a b = true := by
  cases polarity with
  | true =>
    cases hop
    exact h
  | false => rw [BinaryOp.test_of_negate? hop, h, Bool.not_false]

/-- A comparison that holds of some integers may be true. -/
theorem mayBeTrue_of_test {op : BinaryOp} {a b : Interval} {x y : Int}
    (hop : op.isComparison = true) (hx : a.Holds x) (hy : b.Holds y) (h : op.test x y = true) :
    (Interval.evalBinary op a b).truth.mayBeTrue = true := by
  have hv := Interval.holds_evalBinary hx hy ((BinaryOp.gives_iff_test (.inl hop)).2 rfl)
  have hadmits := Interval.admits_truth hv
  rw [h] at hadmits
  exact hadmits

theorem sat_compare (hs : s.Sat σ) {op : BinaryOp} (hop : op.isComparison = true) {lhs rhs : Expr}
    {a b : Int} (ha : lhs.Yields σ a) (hb : rhs.Yields σ b) (h : op.test a b = true) :
    (s.compare op lhs rhs).Sat σ := by
  have hl := holds_eval hs ha
  have hr := holds_eval hs hb
  have hmay := mayBeTrue_of_test hop hl hr h
  have hleft := sat_restrict hs ha (Interval.holds_refine hl hr h)
  dsimp only [compare]
  rw [if_pos hmay]
  split
  · rename_i swapped hswap
    exact sat_restrict hleft hb
      (Interval.holds_refine hr hl ((BinaryOp.test_of_swap? hswap).trans h))
  · exact hleft

/-- Any condition can be compared with zero. -/
theorem sat_truthTest (hs : s.Sat σ) {cond : Expr} {polarity : Bool} {v : Int}
    (hv : cond.Yields σ v) (h : decide (v ≠ 0) = polarity) :
    (s.compare (truthTest polarity) cond (.int Word.zero)).Sat σ := by
  have hzero : (Expr.int Word.zero).Yields σ 0 := rfl
  cases polarity with
  | true => exact sat_compare hs rfl hv hzero h
  | false =>
    rw [decide_not, Bool.not_eq_false'] at h
    exact sat_compare hs rfl hv hzero h

/-- A guard keeps the stores in which its condition may have the truth value that is assumed. -/
theorem sat_assume (hs : s.Sat σ) {cond : Expr} {polarity : Bool} {v : Int}
    (hv : cond.Yields σ v) (h : decide (v ≠ 0) = polarity) : (s.assume cond polarity).Sat σ := by
  fun_induction assume s cond polarity generalizing v with
  | case1 s cond polarity hbottom => simp [isBottom_of_sat hs] at hbottom
  | case2 s polarity hbottom operand ih =>
    obtain ⟨a, ha, rfl⟩ := hv
    rw [decide_truthValue_ne_zero] at h
    exact ih hs ha (by rw [← h, decide_not])
  | case3 s hbottom lhs rhs ihl ihr =>
    obtain ⟨a, b, ha, hb, rfl⟩ := hv
    rw [decide_truthValue_ne_zero, BinaryOp.test, Bool.and_eq_true] at h
    exact ihr (ihl hs ha h.1) hb h.2
  | case4 s polarity hbottom lhs rhs hp ihl ihr =>
    obtain ⟨a, b, ha, hb, rfl⟩ := hv
    rw [Bool.not_eq_true] at hp
    rw [decide_truthValue_ne_zero, BinaryOp.test, hp, Bool.and_eq_false_iff] at h
    exact sat_join (h.imp (ihl hs ha) (ihr hs hb))
  | case5 s hbottom lhs rhs ihl ihr =>
    obtain ⟨a, b, ha, hb, rfl⟩ := hv
    rw [decide_truthValue_ne_zero, BinaryOp.test, Bool.or_eq_true] at h
    exact sat_join (h.imp (ihl hs ha) (ihr hs hb))
  | case6 s polarity hbottom lhs rhs hp ihl ihr =>
    obtain ⟨a, b, ha, hb, rfl⟩ := hv
    rw [Bool.not_eq_true] at hp
    rw [decide_truthValue_ne_zero, BinaryOp.test, hp, Bool.or_eq_false_iff] at h
    exact ihr (ihl hs ha h.1) hb h.2
  | case7 s polarity hbottom op lhs rhs hand hor hcomparison assumed hassumed =>
    obtain ⟨a, b, ha, hb, hv⟩ := hv
    have htest : op.test a b = polarity := by
      rwa [(BinaryOp.gives_iff_test (.inl hcomparison)).1 hv, decide_truthValue_ne_zero] at h
    exact sat_compare hs (isComparison_of_polarized hassumed hcomparison) ha hb
      (test_of_polarized hassumed htest)
  | case8 => exact hs
  | case9 s polarity hbottom op lhs rhs hand hor hcomparison => exact sat_truthTest hs hv h
  | case10 s polarity hbottom cond hnot hand hor hbinary => exact sat_truthTest hs hv h

/-! ## Statements -/

theorem get_forgetFields (s : State) (var key : String) (h : ∀ f, key ≠ fieldKey var f) :
    (s.forgetFields var).get key = s.get key := by
  cases s with
  | bottom => rfl
  | env m =>
    rw [forgetFields, get, get, OrdMap.get?_filterKeys, fieldOfKey?_eq_none.2 h]
    rfl

theorem get_forgetFields_fieldKey (m : OrdMap String Interval) (var field : String) :
    ((env m).forgetFields var).get (fieldKey var field) = .top := by
  rw [forgetFields, get, OrdMap.get?_filterKeys, fieldOfKey?_eq_some.2 rfl]
  rfl

/-- Nothing is known about the fields that are forgotten. -/
theorem sat_forgetFields (hs : s.Sat σ) {var : String}
    (h : ∀ key, (∀ f, key ≠ fieldKey var f) → σ' key = σ key) : (s.forgetFields var).Sat σ' := by
  intro key
  by_cases hfield : ∀ f, key ≠ fieldKey var f
  · rw [get_forgetFields s var key hfield, h key hfield]
    exact hs key
  · obtain ⟨f, rfl⟩ : ∃ f, key = fieldKey var f := by
      simpa using hfield
    cases s with
    | bottom => exact absurd hs (not_sat_bottom σ)
    | env m =>
      rw [get_forgetFields_fieldKey]
      exact Interval.holds_top _

theorem sat_setAll (hs : s.Sat σ) {bindings : List (String × Interval)}
    (h : ∀ e ∈ bindings, e.2.Holds (σ e.1)) : (s.setAll bindings).Sat σ := by
  induction bindings generalizing s with
  | nil => exact hs
  | cons e rest ih =>
    obtain ⟨he, hrest⟩ := List.forall_mem_cons.1 h
    exact ih (sat_set_of_holds hs he) hrest

theorem holds_of_mem_fieldsOf (hs : s.Sat σ) {var : String} {fact : String × Interval}
    (h : fact ∈ s.fieldsOf var) : fact.2.Holds (σ (fieldKey var fact.1)) := by
  cases s with
  | bottom => cases h
  | env m =>
    obtain ⟨e, he, hfact⟩ := List.mem_filterMap.1 h
    obtain ⟨field, hfield, rfl⟩ := Option.map_eq_some_iff.1 hfact
    rw [← fieldOfKey?_eq_some.1 hfield, ← get_env_of_some (OrdMap.mem_entries_iff.1 he)]
    exact hs e.1

/-- The facts that an assignment copies hold of the fields that it writes. -/
theorem holds_of_mem_copiedFields (hs : s.Sat σ) {lhs : String} {rhs : Expr}
    (h : σ.Assigns lhs rhs σ') {fact : String × Interval} (hmem : fact ∈ s.copiedFields rhs) :
    fact.2.Holds (σ' (fieldKey lhs fact.1)) := by
  unfold copiedFields at hmem
  split at hmem
  · rename_i source
    rw [h.copied source rfl]
    exact holds_of_mem_fieldsOf hs hmem
  · rename_i elements
    split at hmem
    · rename_i length hlength
      rw [List.mem_singleton.1 hmem]
      exact Interval.holds_constant.2
        ((h.length elements rfl).trans (Word.ofInt?_eq_some.1 hlength))
    · cases hmem
  · cases hmem

theorem sat_assign (hs : s.Sat σ) {lhs : String} {rhs : Expr} (h : σ.Assigns lhs rhs σ') :
    (s.assign lhs rhs).Sat σ' := by
  -- the fields are written first, while the variable itself still has its old value
  have hfields : ((s.forgetFields lhs).setAll
      ((s.copiedFields rhs).map fun fact => (fieldKey lhs fact.1, fact.2))).Sat
      (σ'.put lhs (σ lhs)) := by
    refine sat_setAll (sat_forgetFields hs fun key hkey => ?_) fun e he => ?_
    · by_cases hlhs : key = lhs
      · rw [hlhs]
        exact if_pos rfl
      · rw [Store.put_of_ne _ hlhs]
        exact h.others key hlhs hkey
    · obtain ⟨fact, hfact, rfl⟩ := List.mem_map.1 he
      rw [Store.put_of_ne _ (fieldKey_ne lhs fact.1)]
      exact holds_of_mem_copiedFields hs h hfact
  have hset := sat_set hfields lhs (holds_eval hs h.value)
  rwa [Store.put_put, Store.put_self] at hset

theorem sat_write (hs : s.Sat σ) {receiver : Expr} {sel : Selector} {rhs : Expr}
    (h : (Stmt.write receiver sel rhs).Exec σ σ') : (s.write receiver sel rhs).Sat σ' := by
  unfold write
  split
  · obtain ⟨v, hv, rfl⟩ := h
    exact sat_set hs _ (holds_eval hs hv)
  · rename_i hother
    have hsame : σ' = σ := by
      cases receiver with
      | var name =>
        cases sel with
        | field f => exact (hother name f rfl rfl).elim
        | index idx => exact h
      | _ => exact h
    rwa [hsame]

theorem sat_interpret (hs : s.Sat σ) {stmt : Stmt} (h : stmt.Exec σ σ') :
    (s.interpret stmt).Sat σ' := by
  unfold interpret
  rw [isBottom_of_sat hs, if_neg Bool.false_ne_true]
  cases stmt with
  | assign lhs rhs => exact sat_assign hs h
  | write receiver sel rhs => exact sat_write hs h
  | throw exn => exact h.elim
  | assume cond =>
    obtain ⟨rfl, v, hne, hv⟩ := h
    exact sat_assume hs hv (decide_eq_true hne)
  | expr e =>
    cases h
    exact hs
  | skip =>
    cases h
    exact hs

/-- In a store that a state allows, the values of every expression lie in its interval, and every
statement leads to stores that the next state allows. -/
theorem transfer_sound (hs : s.Sat σ) :
    (∀ (e : Expr) (v : Int), e.Yields σ v → (s.eval e).Holds v) ∧
      ∀ (stmt : Stmt) (σ' : Store), stmt.Exec σ σ' → (s.interpret stmt).Sat σ' := by
  constructor
  · intro e v hv
    exact holds_eval hs hv
  · intro stmt σ' hexec
    exact sat_interpret hs hexec

/-- The state of a program that has an array of length one and an index that is not negative. -/
def beforeAccess : State :=
  (top.set "a.length" (.constant .one)).set "i" (.atLeast .zero)

/-- The guard that the index is below the length. -/
def withinLength : Stmt := .assume (.binary .lt (.var "i") (.field (.var "a") "length"))

/-- A store with the index zero passes the guard, and stays allowed where zero is the only index. -/
theorem transfer_sound_withinLength :
    (beforeAccess.interpret withinLength).get "i" = .constant .zero ∧
      (beforeAccess.interpret withinLength).Sat (Store.put (fun _ => 0) "a.length" 1) := by
  have hlength :
      (Interval.constant .one).Holds (Store.put (fun _ => 0) "a.length" 1 "a.length") := by
    rw [Interval.holds_constant]
    rfl
  have hindex : (Interval.atLeast .zero).Holds (Store.put (fun _ => 0) "a.length" 1 "i") := by
    rw [Interval.atLeast, Interval.holds_make, below_some]
    exact ⟨by decide, above_none _⟩
  have hs : beforeAccess.Sat (Store.put (fun _ => 0) "a.length" 1) :=
    sat_set_of_holds (sat_set_of_holds (sat_top _) hlength) hindex
  have hexec : withinLength.Exec (Store.put (fun _ => 0) "a.length" 1)
      (Store.put (fun _ => 0) "a.length" 1) :=
    ⟨rfl, 1, by decide, 0, 1, rfl, rfl, rfl⟩
  exact ⟨by decide +kernel, (transfer_sound hs).2 withinLength _ hexec⟩

end State

end Demanded
