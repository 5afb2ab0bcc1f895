import Demanded.Proofs.StateOrder
import Demanded.State.Transfer

/-!
# Statements keep states normal

Operators build their results from bounds that are not crossed, and `State.set` stores neither empty
nor unconstrained intervals.  So every state that a statement makes of a normal one is normal
(`State.normal_interpret`).
-/

namespace Demanded

/-! ## Intervals -/

namespace Interval

theorem ordered_constant (v : Word) : (constant v).Ordered := by
  rw [constant]
  exact ordered_make _ _

theorem ordered_ofTruth (t : Truth) : (ofTruth t).Ordered := by
  cases t with
  | always => exact ordered_constant _
  | never => exact ordered_constant _
  | either =>
    rw [ofTruth]
    exact ordered_make _ _
  | neither => trivial

theorem ordered_add (a b : Interval) : (a.add b).Ordered := by
  unfold add
  split
  · exact ordered_make _ _
  · trivial

theorem ordered_neg (a : Interval) : a.neg.Ordered := by
  cases a with
  | bottom => trivial
  | range l u => exact ordered_make _ _

theorem ordered_mul (a b : Interval) : (a.mul b).Ordered := by
  unfold mul
  split
  · exact ordered_make _ _
  · trivial

theorem ordered_divFinite (l₁ u₁ l₂ u₂ : Word) : (divFinite l₁ u₁ l₂ u₂).Ordered := by
  unfold divFinite
  split
  · exact ordered_make _ _
  · exact ordered_top

theorem ordered_div (a b : Interval) : (a.div b).Ordered := by
  unfold div
  split
  · split
    · exact ordered_top
    · split
      · exact ordered_divFinite _ _ _ _
      · exact ordered_top
  · trivial

theorem ordered_rem (a b : Interval) : (a.rem b).Ordered := by
  unfold rem
  split
  · split
    · exact ordered_top
    · dsimp only
      split
      · exact ordered_make _ _
      · split
        · exact ordered_make _ _
        · exact ordered_make _ _
  · trivial

theorem ordered_evalBinary (op : BinaryOp) (a b : Interval) : (evalBinary op a b).Ordered := by
  unfold evalBinary
  split
  · trivial
  · cases op with
    | add => exact ordered_add a b
    | sub => exact ordered_add a b.neg
    | mul => exact ordered_mul a b
    | div => exact ordered_div a b
    | rem => exact ordered_rem a b
    | lt | le | gt | ge | eq | ne | and | or => exact ordered_ofTruth _

theorem ordered_evalUnary (op : UnaryOp) (a : Interval) : (evalUnary op a).Ordered := by
  cases op with
  | neg => exact ordered_neg a
  | not => exact ordered_ofTruth _

theorem ordered_refine (op : BinaryOp) (a b : Interval) : (a.refine op b).Ordered := by
  cases b with
  | bottom => trivial
  | range l u => exact ordered_meet a _

end Interval

/-! ## States -/

namespace State

theorem ordered_eval {s : State} (hs : s.Normal) (e : Expr) : (s.eval e).Ordered := by
  unfold eval
  split
  · exact ordered_get hs _
  · split
    · trivial
    · exact Interval.ordered_constant _
  · split
    · trivial
    · exact Interval.ordered_constant _
  · split
    · trivial
    · exact Interval.ordered_top
  · exact Interval.ordered_evalBinary _ _ _
  · exact Interval.ordered_evalUnary _ _
  · exact ordered_get hs _
  all_goals
    split
    · trivial
    · exact Interval.ordered_top

theorem normal_restrict {s : State} (hs : s.Normal) (e : Expr) {a : Interval} (ha : a.Ordered) :
    (s.restrict e a).Normal := by
  unfold restrict
  split
  · exact normal_set hs ha _
  · exact hs

theorem normal_compare {s : State} (hs : s.Normal) (op : BinaryOp) (lhs rhs : Expr) :
    (s.compare op lhs rhs).Normal := by
  have hleft := normal_restrict hs lhs (Interval.ordered_refine op (s.eval lhs) (s.eval rhs))
  dsimp only [compare]
  split
  · split
    · exact normal_restrict hleft rhs (Interval.ordered_refine _ _ _)
    · exact hleft
  · trivial

theorem normal_assume {s : State} (hs : s.Normal) (cond : Expr) (polarity : Bool) :
    (s.assume cond polarity).Normal := by
  fun_induction assume s cond polarity with
  | case1 => trivial
  | case2 s polarity hb operand ih => exact ih hs
  | case3 s hb lhs rhs ihl ihr => exact ihr (ihl hs)
  | case4 s polarity hb lhs rhs hp ihl ihr => exact normal_join (ihl hs) (ihr hs)
  | case5 s hb lhs rhs ihl ihr => exact normal_join (ihl hs) (ihr hs)
  | case6 s polarity hb lhs rhs hp ihl ihr => exact ihr (ihl hs)
  | case7 => exact normal_compare hs _ _ _
  | case8 => exact hs
  | case9 => exact normal_compare hs _ _ _
  | case10 => exact normal_compare hs _ _ _

theorem normal_forgetFields {s : State} (hs : s.Normal) (var : String) :
    (s.forgetFields var).Normal := by
  cases s with
  | bottom => trivial
  | env m =>
    intro key a hm
    rw [OrdMap.get?_filterKeys] at hm
    split at hm
    · exact hs key a hm
    · cases hm

theorem ordered_of_mem_fieldsOf {s : State} (hs : s.Normal) {var : String}
    {fact : String × Interval} (h : fact ∈ s.fieldsOf var) : fact.2.Ordered := by
  cases s with
  | bottom => cases h
  | env m =>
    obtain ⟨e, he, hfact⟩ := List.mem_filterMap.1 h
    obtain ⟨field, -, rfl⟩ := Option.map_eq_some_iff.1 hfact
    exact (hs e.1 e.2 (OrdMap.mem_entries_iff.1 he)).ordered

theorem ordered_of_mem_copiedFields {s : State} (hs : s.Normal) {rhs : Expr}
    {fact : String × Interval} (h : fact ∈ s.copiedFields rhs) : fact.2.Ordered := by
  unfold copiedFields at h
  split at h
  · exact ordered_of_mem_fieldsOf hs h
  · split at h
    · rw [List.mem_singleton.1 h]
      exact Interval.ordered_constant _
    · cases h
  · cases h

theorem normal_assign {s : State} (hs : s.Normal) (lhs : String) (rhs : Expr) :
    (s.assign lhs rhs).Normal := by
  refine normal_set (normal_setAll (normal_forgetFields hs lhs) ?_) (ordered_eval hs rhs) lhs
  intro e he
  obtain ⟨fact, hfact, rfl⟩ := List.mem_map.1 he
  exact (ordered_of_mem_copiedFields hs hfact : fact.2.Ordered)

theorem normal_interpret {s : State} (hs : s.Normal) (stmt : Stmt) :
    (s.interpret stmt).Normal := by
  unfold interpret
  split
  · trivial
  · cases stmt with
    | assign lhs rhs => exact normal_assign hs lhs rhs
    | write receiver sel rhs =>
      dsimp only [write]
      split
      · exact normal_set hs (ordered_eval hs rhs) _
      · exact hs
    | throw exn => trivial
    | assume cond => exact normal_assume hs cond true
    | expr e => exact hs
    | skip => exact hs

end State

end Demanded
