import Mathlib.Data.List.Nodup
import Demanded.Proofs.OperatorMonotonicity
import Demanded.Proofs.Transfer

/-!
# Statements are monotone where they fit

What `State.interpret` makes of a smaller state is smaller, if no operator that the statement
evaluates there has all its exact results beyond the words (`State.FitsStmt`,
`State.monotone_where_fitting`).  Without that it need not be: `State.increment_not_monotone` adds
one to the greatest word.

Guards go by induction over conditions, as each comparison is made in the state that the ones before
it leave.  Assignments are compared key by key, so `State.assign_env` says what an assignment binds
each key to.
-/

namespace Demanded.State

variable {s t : State}

/-! ## Bindings -/

theorem get_mono (h : s.implies t = true) (key : String) :
    (s.get key).implies (t.get key) = true := by
  cases s with
  | bottom => rfl
  | env m =>
    cases t with
    | bottom => cases h
    | env m' => exact implies_env_iff.1 h key

theorem isBottom_of_implies (h : s.implies t = true) (hs : ¬s.isBottom = true) :
    t.isBottom = false := by
  cases s with
  | bottom => exact absurd rfl hs
  | env m =>
    cases t with
    | bottom => cases h
    | env m' => rfl

theorem set_bottom (s : State) (key : String) : s.set key .bottom = bottom := by
  cases s <;> rfl

theorem ne_bottom_of_implies {a b : Interval} (h : a.implies b = true) (ha : a ≠ .bottom) :
    b ≠ .bottom := by
  rintro rfl
  cases a with
  | bottom => exact ha rfl
  | range l u => cases h

theorem set_mono (h : s.implies t = true) (key : String) {a b : Interval}
    (hab : a.implies b = true) : (s.set key a).implies (t.set key b) = true := by
  cases s with
  | bottom => rfl
  | env m =>
    cases t with
    | bottom => cases h
    | env m' =>
      by_cases ha : a = .bottom
      · subst ha
        rfl
      · have hb := ne_bottom_of_implies hab ha
        obtain ⟨m₁, hset, hget⟩ := set_env m key ha
        obtain ⟨m₁', hset', hget'⟩ := set_env m' key hb
        rw [hset, hset', implies_env_iff]
        intro k
        rw [hget, hget']
        split
        · exact hab
        · exact implies_env_iff.1 h k

/-! ## Expressions -/

/-- The operators in the expression fit. -/
def FitsExpr (s : State) : Expr → Prop
  | .binary op lhs rhs =>
    s.FitsExpr lhs ∧ s.FitsExpr rhs ∧ Interval.FitsBinary op (s.eval lhs) (s.eval rhs)
  | .unary op operand => s.FitsExpr operand ∧ Interval.FitsUnary op (s.eval operand)
  | _ => True

theorem eval_mono (hs : s.Normal) (h : s.implies t = true) {e : Expr} (hfits : s.FitsExpr e) :
    (s.eval e).implies (t.eval e) = true := by
  -- where only reachability counts, both states are reachable
  have hreach : ¬s.isBottom = true → t.isBottom = false := fun hb => isBottom_of_implies h hb
  fun_induction eval s e with
  | case1 name => exact get_mono h name
  | case8 op lhs rhs ihl ihr =>
    exact Interval.evalBinary_mono (ordered_eval hs lhs) (ordered_eval hs rhs) (ihl hfits.1)
      (ihr hfits.2.1) hfits.2.2
  | case9 op operand ih =>
    exact Interval.evalUnary_mono (ordered_eval hs operand) (ih hfits.1) hfits.2
  | case10 name f => exact get_mono h (fieldKey name f)
  | case2 | case4 | case6 | case11 | case13 | case15 | case17 => rfl
  | case3 w hb | case5 b hb | case7 hb =>
    rw [eval, hreach hb, if_neg Bool.false_ne_true]
    exact Interval.implies_refl _
  | _ => simp_all [eval, Interval.implies_refl]

/-! ## Guards -/

/-- The comparison fits, and so do both sides. -/
def FitsCompare (s : State) (op : BinaryOp) (lhs rhs : Expr) : Prop :=
  s.FitsExpr lhs ∧ s.FitsExpr rhs ∧ Interval.FitsComparison op (s.eval lhs) (s.eval rhs)

/-- The comparisons that a guard makes fit, each in the state in which it is made. -/
def FitsGuard (s : State) (cond : Expr) (polarity : Bool) : Prop :=
  match cond with
  | .unary .not operand => s.FitsGuard operand (!polarity)
  | .binary .and lhs rhs =>
    s.FitsGuard lhs polarity ∧ (if polarity then s.assume lhs true else s).FitsGuard rhs polarity
  | .binary .or lhs rhs =>
    s.FitsGuard lhs polarity ∧ (if polarity then s else s.assume lhs false).FitsGuard rhs polarity
  | .binary op lhs rhs =>
    if op.isComparison then ∀ assumed ∈ polarized op polarity, s.FitsCompare assumed lhs rhs
    else s.FitsExpr (.binary op lhs rhs)
  | cond => s.FitsExpr cond

theorem restrict_mono (h : s.implies t = true) (e : Expr) {a b : Interval}
    (hab : a.implies b = true) : (s.restrict e a).implies (t.restrict e b) = true := by
  unfold restrict
  split
  · exact set_mono h _ hab
  · exact h

theorem join_mono {s' t' : State} (hs : s.Normal) (hs' : s'.Normal) (ht : t.Normal)
    (ht' : t'.Normal) (h : s.implies t = true) (h' : s'.implies t' = true) :
    (s.join s').implies (t.join t') = true :=
  join_implies hs (implies_trans hs h (implies_join_left ht t'))
    (implies_trans hs' h' (implies_join_right t ht'))

/-- A comparison that may be true holds of some integers. -/
theorem exists_of_mayBeTrue {op : BinaryOp} {a b : Interval} (hop : op.isComparison = true)
    (ha : a.Ordered) (hb : b.Ordered)
    (h : (Interval.evalBinary op a b).truth.mayBeTrue = true) :
    ∃ x y, a.Holds x ∧ b.Holds y ∧ op.test x y = true := by
  obtain ⟨v, hv, hne⟩ :=
    Interval.exists_of_admits_truth (c := true) (Interval.ordered_evalBinary op a b) h
  obtain ⟨x, y, hx, hy, hxy⟩ := Interval.results_of_condition ha hb (.inl hop) hv
  rw [(BinaryOp.gives_iff_test (.inl hop)).1 hxy, decide_truthValue_ne_zero] at hne
  exact ⟨x, y, hx, hy, hne⟩

theorem compare_mono {op : BinaryOp} {lhs rhs : Expr} (hs : s.Normal) (h : s.implies t = true)
    (hop : op.isComparison = true) (hfits : s.FitsCompare op lhs rhs) :
    (s.compare op lhs rhs).implies (t.compare op lhs rhs) = true := by
  obtain ⟨hfl, hfr, hfits⟩ := hfits
  have hl := eval_mono hs h hfl
  have hr := eval_mono hs h hfr
  have hol := ordered_eval hs lhs
  have hor := ordered_eval hs rhs
  dsimp only [compare]
  split
  · rename_i hmay
    obtain ⟨x, y, hx, hy, htest⟩ := exists_of_mayBeTrue hop hol hor hmay
    have hmay' := mayBeTrue_of_test hop (Interval.holds_of_implies hl hx)
      (Interval.holds_of_implies hr hy) htest
    have hleft := restrict_mono h lhs
      (Interval.refine_mono hop hor hl hr hfits ⟨x, y, hx, hy, htest⟩)
    rw [if_pos hmay']
    split
    · rename_i swapped hswap
      exact restrict_mono hleft rhs
        (Interval.refine_mono (BinaryOp.isComparison_of_swap? hswap).2 hol hr hl
          (hfits.swap hswap) ⟨y, x, hy, hx, (BinaryOp.test_of_swap? hswap).trans htest⟩)
    · exact hleft
  · rfl

/-- A condition that is not followed any further is compared with zero. -/
theorem truthTest_mono (hs : s.Normal) (h : s.implies t = true) {cond : Expr} {polarity : Bool}
    (hfits : s.FitsExpr cond) :
    (s.compare (truthTest polarity) cond (.int Word.zero)).implies
      (t.compare (truthTest polarity) cond (.int Word.zero)) = true := by
  cases polarity with
  | true => exact compare_mono hs h rfl ⟨hfits, trivial, trivial⟩
  | false => exact compare_mono hs h rfl ⟨hfits, trivial, trivial⟩

theorem assume_mono (hs : s.Normal) (ht : t.Normal) (h : s.implies t = true) {cond : Expr}
    {polarity : Bool} (hfits : s.FitsGuard cond polarity) :
    (s.assume cond polarity).implies (t.assume cond polarity) = true := by
  fun_induction assume s cond polarity generalizing t with
  | case1 => rfl
  | case2 s polarity hb operand ih =>
    rw [assume, isBottom_of_implies h hb, if_neg Bool.false_ne_true]
    exact ih hs ht h hfits
  | case3 s hb lhs rhs ihl ihr =>
    rw [assume, isBottom_of_implies h hb, if_neg Bool.false_ne_true]
    exact ihr (normal_assume hs lhs true) (normal_assume ht lhs true) (ihl hs ht h hfits.1) hfits.2
  | case4 s polarity hb lhs rhs hp ihl ihr =>
    obtain rfl : polarity = false := Bool.eq_false_iff.2 hp
    rw [assume, isBottom_of_implies h hb, if_neg Bool.false_ne_true]
    exact join_mono (normal_assume hs lhs false) (normal_assume hs rhs false)
      (normal_assume ht lhs false) (normal_assume ht rhs false) (ihl hs ht h hfits.1)
      (ihr hs ht h hfits.2)
  | case5 s hb lhs rhs ihl ihr =>
    rw [assume, isBottom_of_implies h hb, if_neg Bool.false_ne_true]
    exact join_mono (normal_assume hs lhs true) (normal_assume hs rhs true)
      (normal_assume ht lhs true) (normal_assume ht rhs true) (ihl hs ht h hfits.1)
      (ihr hs ht h hfits.2)
  | case6 s polarity hb lhs rhs hp ihl ihr =>
    obtain rfl : polarity = false := Bool.eq_false_iff.2 hp
    rw [assume, isBottom_of_implies h hb, if_neg Bool.false_ne_true]
    exact ihr (normal_assume hs lhs false) (normal_assume ht lhs false) (ihl hs ht h hfits.1)
      hfits.2
  | case7 s polarity hb op lhs rhs hand hor hcomparison assumed hassumed =>
    simp only [FitsGuard, hcomparison, if_true] at hfits
    simp only [assume, isBottom_of_implies h hb, Bool.false_eq_true, if_false, hcomparison,
      if_true, hassumed]
    exact compare_mono hs h (isComparison_of_polarized hassumed hcomparison)
      (hfits assumed hassumed)
  | case8 s polarity hb op lhs rhs hand hor hcomparison hnone =>
    simp only [assume, isBottom_of_implies h hb, Bool.false_eq_true, if_false, hcomparison,
      if_true, hnone]
    exact h
  | case9 s polarity hb op lhs rhs hand hor hcomparison =>
    simp only [FitsGuard, hcomparison] at hfits
    simp only [assume, isBottom_of_implies h hb, Bool.false_eq_true, if_false, hcomparison]
    exact truthTest_mono hs h hfits
  | case10 s polarity hb cond hnot hand hor hbinary =>
    simp only [FitsGuard] at hfits
    simp only [assume, isBottom_of_implies h hb, Bool.false_eq_true, if_false]
    exact truthTest_mono hs h hfits

/-! ## Statements -/

/-- What an assignment says about a field of the variable on the left. -/
def copied (s : State) (rhs : Expr) (field : String) : Interval :=
  match rhs with
  | .var source => s.get (fieldKey source field)
  | .array elements =>
    if field = "length" then ((Word.ofInt? elements.length).map .constant).getD .top else .top
  | _ => .top

theorem copied_mono (h : s.implies t = true) (rhs : Expr) (field : String) :
    (s.copied rhs field).implies (t.copied rhs field) = true := by
  unfold copied
  split
  · exact get_mono h _
  · exact Interval.implies_refl _
  · exact Interval.implies_refl _

/-- The facts that an assignment copies are those about the fields of its right side. -/
theorem mem_copiedFields {m : OrdMap String Interval} {rhs : Expr} {field : String} {a : Interval}
    (h : (field, a) ∈ (env m).copiedFields rhs) : (env m).copied rhs field = a := by
  unfold copiedFields at h
  split at h
  · obtain ⟨e, he, hfact⟩ := List.mem_filterMap.1 h
    obtain ⟨f, hf, hpair⟩ := Option.map_eq_some_iff.1 hfact
    cases hpair
    rw [copied, ← fieldOfKey?_eq_some.1 hf]
    exact get_env_of_some (OrdMap.mem_entries_iff.1 he)
  · rename_i elements
    split at h
    · rename_i length hlength
      cases List.mem_singleton.1 h
      simp [copied, hlength]
    · cases h
  · cases h

theorem copied_of_notMem {m : OrdMap String Interval} {rhs : Expr} {field : String}
    (h : ∀ a, (field, a) ∉ (env m).copiedFields rhs) : (env m).copied rhs field = .top := by
  unfold copied
  split
  · rename_i source
    cases hm : m.get? (fieldKey source field) with
    | none => exact get_env_of_none hm
    | some a =>
      have hfield : fieldOfKey? source (fieldKey source field) = some field :=
        fieldOfKey?_eq_some.2 rfl
      exact absurd (List.mem_filterMap.2 ⟨(fieldKey source field, a), OrdMap.mem_entries_iff.2 hm,
        by rw [hfield, Option.map_some]⟩) (h a)
  · rename_i elements
    split
    · rename_i hlength
      cases hword : Word.ofInt? elements.length with
      | none => rfl
      | some n => exact absurd (by simp [copiedFields, hword, hlength]) (h (.constant n))
    · rfl
  · rfl

theorem nodup_copiedFields (m : OrdMap String Interval) (rhs : Expr) :
    (((env m).copiedFields rhs).map Prod.fst).Nodup := by
  unfold copiedFields
  split
  · rename_i source
    have hfields : ((env m).fieldsOf source).map Prod.fst =
        m.keys.filterMap (fieldOfKey? source) := by
      rw [fieldsOf, OrdMap.keys, List.map_filterMap, List.filterMap_map]
      congr 1
      funext e
      cases h : fieldOfKey? source e.1 <;> simp [h]
    rw [hfields]
    refine (OrdMap.nodup_keys m).filterMap ?_
    intro key key' field hkey hkey'
    rw [fieldOfKey?_eq_some.1 hkey, fieldOfKey?_eq_some.1 hkey']
  · split
    · exact List.nodup_singleton _
    · exact List.nodup_nil
  · exact List.nodup_nil

theorem copied_ne_bottom {m : OrdMap String Interval} (hs : (env m).Normal) (rhs : Expr)
    (field : String) : (env m).copied rhs field ≠ .bottom := by
  unfold copied
  split
  · exact get_ne_bottom hs _
  · rename_i elements
    split
    · cases Word.ofInt? elements.length with
      | none => simp [Interval.top]
      | some n => exact Interval.ne_bottom_of_holds (Interval.holds_constant.2 rfl)
    · simp [Interval.top]
  · simp [Interval.top]

theorem fieldKey_injective {var f f' : String} (h : fieldKey var f = fieldKey var f') : f = f' := by
  have hf : fieldOfKey? var (fieldKey var f) = some f := fieldOfKey?_eq_some.2 rfl
  rw [h, fieldOfKey?_eq_some.2 rfl] at hf
  exact (Option.some.inj hf).symm

/-- An assignment changes the variable and its fields only. -/
theorem assign_env {m : OrdMap String Interval} (hs : (env m).Normal) (lhs : String) {rhs : Expr}
    (hne : (env m).eval rhs ≠ .bottom) :
    ∃ m', (env m).assign lhs rhs = env m' ∧ (env m').get lhs = (env m).eval rhs ∧
      (∀ f, (env m').get (fieldKey lhs f) = (env m).copied rhs f) ∧
      ∀ key, key ≠ lhs → (∀ f, key ≠ fieldKey lhs f) → (env m').get key = (env m).get key := by
  let facts := ((env m).copiedFields rhs).map fun fact => (fieldKey lhs fact.1, fact.2)
  have hmem : ∀ {key a}, (key, a) ∈ facts ↔
      ∃ f, (f, a) ∈ (env m).copiedFields rhs ∧ fieldKey lhs f = key := by
    intro key a
    simp [facts]
  have hnodup : (facts.map Prod.fst).Nodup := by
    have hkeys : facts.map Prod.fst =
        (((env m).copiedFields rhs).map Prod.fst).map (fieldKey lhs) := by
      simp [facts]
    rw [hkeys]
    exact (nodup_copiedFields m rhs).map fun f f' h => fieldKey_injective h
  have hproper : ∀ e ∈ facts, e.2 ≠ .bottom := by
    rintro ⟨key, a⟩ he
    obtain ⟨f, hf, -⟩ := hmem.1 he
    exact mem_copiedFields hf ▸ copied_ne_bottom hs rhs f
  obtain ⟨m₀, hforget⟩ : ∃ m₀, (env m).forgetFields lhs = env m₀ := ⟨_, rfl⟩
  obtain ⟨m₁, hall, hin, hout⟩ := setAll_env facts m₀ hnodup hproper
  obtain ⟨m₂, hset, hget⟩ := set_env m₁ lhs hne
  refine ⟨m₂, ?_, ?_, ?_, ?_⟩
  · rw [assign, hforget]
    exact hall ▸ hset
  · rw [hget, if_pos rfl]
  · intro f
    rw [hget, if_neg (fieldKey_ne lhs f)]
    by_cases hf : ∃ a, (f, a) ∈ (env m).copiedFields rhs
    · obtain ⟨a, ha⟩ := hf
      rw [mem_copiedFields ha]
      exact hin (fieldKey lhs f, a) (hmem.2 ⟨f, ha, rfl⟩)
    · rw [copied_of_notMem fun a ha => hf ⟨a, ha⟩, hout, ← hforget, get_forgetFields_fieldKey]
      intro hkey
      obtain ⟨⟨key, a⟩, he, rfl⟩ := List.mem_map.1 hkey
      obtain ⟨f', hf', hff'⟩ := hmem.1 he
      exact hf ⟨a, fieldKey_injective hff' ▸ hf'⟩
  · intro key hkey hfields
    rw [hget, if_neg hkey, hout, ← hforget, get_forgetFields _ _ _ hfields]
    intro hmemkey
    obtain ⟨⟨key, a⟩, he, rfl⟩ := List.mem_map.1 hmemkey
    obtain ⟨f, -, hf⟩ := hmem.1 he
    exact hfields f hf.symm

theorem assign_mono {m m' : OrdMap String Interval} (hs : (env m).Normal) (ht : (env m').Normal)
    (h : (env m).implies (env m') = true) (lhs : String) {rhs : Expr}
    (hfits : (env m).FitsExpr rhs) :
    ((env m).assign lhs rhs).implies ((env m').assign lhs rhs) = true := by
  have heval := eval_mono hs h hfits
  by_cases hbottom : (env m).eval rhs = .bottom
  · rw [assign, hbottom, set_bottom]
    rfl
  · have hbottom' := ne_bottom_of_implies heval hbottom
    obtain ⟨m₁, hassign, hlhs, hfields, hothers⟩ := assign_env hs lhs hbottom
    obtain ⟨m₁', hassign', hlhs', hfields', hothers'⟩ := assign_env ht lhs hbottom'
    rw [hassign, hassign', implies_env_iff]
    intro key
    by_cases hkey : key = lhs
    · rw [hkey, hlhs, hlhs']
      exact heval
    · by_cases hfield : ∃ f, key = fieldKey lhs f
      · obtain ⟨f, rfl⟩ := hfield
        rw [hfields, hfields']
        exact copied_mono h rhs f
      · have hfield : ∀ f, key ≠ fieldKey lhs f := fun f hf => hfield ⟨f, hf⟩
        rw [hothers key hkey hfield, hothers' key hkey hfield]
        exact get_mono h key

/-- The operators that the statement evaluates fit. -/
def FitsStmt (s : State) : Stmt → Prop
  | .assign _ rhs => s.FitsExpr rhs
  | .write (.var _) (.field _) rhs => s.FitsExpr rhs
  | .assume cond => s.FitsGuard cond true
  | _ => True

theorem write_mono (hs : s.Normal) (h : s.implies t = true) {receiver : Expr} {sel : Selector}
    {rhs : Expr} (hfits : s.FitsStmt (.write receiver sel rhs)) :
    (s.write receiver sel rhs).implies (t.write receiver sel rhs) = true := by
  unfold write
  split
  · exact set_mono h _ (eval_mono hs h hfits)
  · exact h

theorem interpret_mono (hs : s.Normal) (ht : t.Normal) (h : s.implies t = true) {stmt : Stmt}
    (hfits : s.FitsStmt stmt) : (s.interpret stmt).implies (t.interpret stmt) = true := by
  cases s with
  | bottom => rfl
  | env m =>
    cases t with
    | bottom => cases h
    | env m' =>
      cases stmt with
      | assign lhs rhs => exact assign_mono hs ht h lhs hfits
      | write receiver sel rhs => exact write_mono hs h hfits
      | throw exn => rfl
      | assume cond => exact assume_mono hs ht h hfits
      | expr e => exact h
      | skip => exact h

/-- A statement takes a smaller state to a smaller one if its operators fit in the smaller state.
At two intervals an operator is monotone exactly if it fits. -/
theorem monotone_where_fitting (s t : State) (stmt : Stmt) (hs : s.Normal) (ht : t.Normal) :
    (s.implies t = true → s.FitsStmt stmt →
      (s.interpret stmt).implies (t.interpret stmt) = true) ∧
    (∀ (op : BinaryOp) (a b : Interval), a.Ordered → b.Ordered →
      (Interval.MonotoneAt op a b ↔ Interval.FitsBinary op a b)) ∧
    ∀ (op : UnaryOp) (a : Interval), a.Ordered →
      (Interval.MonotoneAtUnary op a ↔ Interval.FitsUnary op a) := by
  refine ⟨?_, ?_, ?_⟩
  · intro h hfits
    exact interpret_mono hs ht h hfits
  · intro op a b ha hb
    exact Interval.monotoneAt_iff ha hb
  · intro op a ha
    exact Interval.monotoneAtUnary_iff ha

/-- The greatest word. -/
def lastWord : Word := ⟨9223372036854775807, by decide, by decide⟩

/-- Adds one to a variable. -/
def increment : Stmt := .assign "x" (.binary .add (.var "x") (.int .one))

/-- The state in which the variable is not negative and a word. -/
def notNegative : State := top.set "x" (.make (some .zero) (some lastWord))

theorem normal_notNegative : notNegative.Normal :=
  normal_set normal_top (Interval.ordered_make _ _) "x"

/-- Adding one to zero fits. -/
theorem monotone_where_fitting_increment :
    ((top.set "x" (.constant .zero)).interpret increment).implies
      (notNegative.interpret increment) = true := by
  have hs : (top.set "x" (.constant .zero)).Normal :=
    normal_set normal_top (Interval.ordered_constant _) "x"
  have hfits : (top.set "x" (.constant .zero)).FitsStmt increment := by
    have hx : (top.set "x" (.constant .zero)).eval (.var "x") = .constant .zero := by decide +kernel
    have hone : (top.set "x" (.constant .zero)).eval (.int .one) = .constant .one := by
      decide +kernel
    refine ⟨trivial, trivial, fun _ => ⟨.one, 0, 1, ?_, ?_, rfl⟩⟩
    · rw [hx]
      exact Interval.holds_constant.2 rfl
    · rw [hone]
      exact Interval.holds_constant.2 rfl
  exact (monotone_where_fitting _ _ increment hs normal_notNegative).1 (by decide +kernel) hfits

/-- Adding one to the greatest word loses the lower bound that adding one to more integers keeps. -/
theorem increment_not_monotone :
    (top.set "x" (.constant lastWord)).Normal ∧ notNegative.Normal ∧
      (top.set "x" (.constant lastWord)).implies notNegative = true ∧
      ((top.set "x" (.constant lastWord)).interpret increment).implies
        (notNegative.interpret increment) = false := by
  refine ⟨normal_set normal_top (Interval.ordered_constant _) "x", normal_notNegative, ?_, ?_⟩
  · decide +kernel
  · decide +kernel

end Demanded.State
