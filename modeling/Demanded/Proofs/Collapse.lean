import Demanded.Proofs.Monotonicity

/-!
# States collapse at guards and throws only

An interval that comes out empty makes the whole state unreachable, so an operator that crosses the
bounds of its result would cut executions off.  None does.  A normal state allows a store, in each
store every expression has a value (`Expr.exists_yields`), and intervals are around the values, so
no expression is empty in a normal state (`State.eval_ne_bottom`).

`State.Built` has the states that come from the unconstrained and from the unreachable one in any
number of steps.  They are the normal states, all of them (`State.built_iff_normal`).
-/

namespace Demanded

/-! ## Expressions have values -/

/-- An operator gives some integer, also where it divides by zero. -/
theorem BinaryOp.exists_gives (op : BinaryOp) (a b : Int) : ∃ v, op.Gives a b v := by
  cases op with
  | div => exact ⟨_, fun _ => rfl⟩
  | rem => exact ⟨_, fun _ => rfl⟩
  | add | sub | mul | lt | le | gt | ge | eq | ne | and | or => exact ⟨_, rfl⟩

theorem UnaryOp.exists_gives (op : UnaryOp) (a : Int) : ∃ v, op.Gives a v := by
  cases op with
  | neg | not => exact ⟨_, rfl⟩

/-- Every expression has a value in every store. -/
theorem Expr.exists_yields (σ : Store) : ∀ e : Expr, ∃ v, e.Yields σ v
  | .var name => ⟨σ name, rfl⟩
  | .lit (.int w) => ⟨w.val, rfl⟩
  | .lit (.bool b) => ⟨truthValue b, rfl⟩
  | .lit .null => ⟨0, trivial⟩
  | .binary op lhs rhs => by
    obtain ⟨a, ha⟩ := exists_yields σ lhs
    obtain ⟨b, hb⟩ := exists_yields σ rhs
    obtain ⟨v, hv⟩ := op.exists_gives a b
    exact ⟨v, a, b, ha, hb, hv⟩
  | .unary op operand => by
    obtain ⟨a, ha⟩ := exists_yields σ operand
    obtain ⟨v, hv⟩ := op.exists_gives a
    exact ⟨v, a, ha, hv⟩
  | .field receiver f => by
    cases receiver with
    | var name => exact ⟨σ (fieldKey name f), rfl⟩
    | lit | binary | unary | field | index | array | call => exact ⟨0, trivial⟩
  | .index _ _ => ⟨0, trivial⟩
  | .array _ => ⟨0, trivial⟩
  | .call _ _ => ⟨0, trivial⟩

namespace State

/-! ## Where states collapse -/

/-- No expression is empty in a normal state: its values in a store that the state allows lie in its
interval. -/
theorem eval_ne_bottom {s : State} (hs : s.Normal) (hne : s ≠ bottom) (e : Expr) :
    s.eval e ≠ .bottom := by
  obtain ⟨σ, hσ⟩ := exists_sat_of_ne_bottom hs hne
  obtain ⟨v, hv⟩ := e.exists_yields σ
  exact Interval.ne_bottom_of_holds (holds_eval hσ hv)

theorem assign_ne_bottom {s : State} (hs : s.Normal) (hne : s ≠ bottom) (lhs : String)
    (rhs : Expr) : s.assign lhs rhs ≠ bottom := by
  cases s with
  | bottom => exact absurd rfl hne
  | env m =>
    obtain ⟨m', hassign, -⟩ := assign_env hs lhs (eval_ne_bottom hs hne rhs)
    rw [hassign]
    exact env_ne_bottom m'

theorem write_ne_bottom {s : State} (hs : s.Normal) (hne : s ≠ bottom) (receiver : Expr)
    (sel : Selector) (rhs : Expr) : s.write receiver sel rhs ≠ bottom := by
  unfold write
  split
  · rename_i name f
    cases s with
    | bottom => exact absurd rfl hne
    | env m =>
      obtain ⟨m', hset, -⟩ := set_env m (fieldKey name f) (eval_ne_bottom hs hne rhs)
      rw [hset]
      exact env_ne_bottom m'
  · exact hne

/-- A statement that makes a normal state unreachable is a throw or a guard. -/
theorem throw_or_assume_of_interpret {s : State} (hs : s.Normal) (hne : s ≠ bottom) {stmt : Stmt}
    (h : s.interpret stmt = bottom) :
    (∃ exn, stmt = .throw exn) ∨ ∃ cond, stmt = .assume cond := by
  obtain ⟨σ, hσ⟩ := exists_sat_of_ne_bottom hs hne
  unfold interpret at h
  rw [isBottom_of_sat hσ, if_neg Bool.false_ne_true] at h
  cases stmt with
  | assign lhs rhs => exact absurd h (assign_ne_bottom hs hne lhs rhs)
  | write receiver sel rhs => exact absurd h (write_ne_bottom hs hne receiver sel rhs)
  | throw exn => exact .inl ⟨exn, rfl⟩
  | assume cond => exact .inr ⟨cond, rfl⟩
  | expr e => exact absurd h hne
  | skip => exact absurd h hne

/-! ## How states are built -/

/-- The states that come from the unconstrained and the unreachable one by binding keys, executing
statements, joining and widening. -/
inductive Built : State → Prop
  | top : Built top
  | bottom : Built bottom
  | set {s : State} (hs : Built s) (key : String) (lower upper : Bound) :
    Built (s.set key (.make lower upper))
  | interpret {s : State} (hs : Built s) (stmt : Stmt) : Built (s.interpret stmt)
  | join {s t : State} (hs : Built s) (ht : Built t) : Built (s.join t)
  | widen {s t : State} (hs : Built s) (ht : Built t) : Built (s.widen t)

theorem Built.normal {s : State} (h : s.Built) : s.Normal := by
  induction h with
  | top => exact normal_top
  | bottom => exact normal_bottom
  | set hs key lower upper ih => exact normal_set ih (Interval.ordered_make lower upper) key
  | interpret hs stmt ih => exact normal_interpret ih stmt
  | join hs ht ihs iht => exact normal_join ihs iht
  | widen hs ht ihs iht => exact normal_widen ihs iht

/-- Binding a key to a proper interval stores the binding. -/
theorem set_of_proper (m : OrdMap String Interval) (key : String) {a : Interval} (ha : a.Proper) :
    (env m).set key a = env (m.insert key a) := by
  rw [set, if_neg fun hb => ha.ne_bottom (Interval.isBottom_iff.1 hb),
    if_neg fun ht => ha.ne_top (Interval.isTop_iff.1 ht)]

/-- Bindings to proper intervals can be set one after the other. -/
theorem Built.foldl_insert {bindings : List (String × Interval)}
    (hproper : ∀ e ∈ bindings, e.2.Proper) {m : OrdMap String Interval} (hm : (env m).Built) :
    (env (bindings.foldl (fun m e => m.insert e.1 e.2) m)).Built := by
  induction bindings generalizing m with
  | nil => exact hm
  | cons e rest ih =>
    obtain ⟨he, hrest⟩ := List.forall_mem_cons.1 hproper
    refine ih hrest ?_
    rw [← set_of_proper m e.1 he]
    obtain ⟨key, a⟩ := e
    cases a with
    | bottom => exact absurd rfl he.ne_bottom
    | range l u =>
      rw [← Interval.make_of_ordered he.ordered]
      exact hm.set key l u

/-- The states that can be built are the normal ones. -/
theorem built_iff_normal {s : State} : s.Built ↔ s.Normal := by
  refine ⟨Built.normal, fun hs => ?_⟩
  cases s with
  | bottom => exact .bottom
  | env m =>
    rw [← OrdMap.ofList_entries m]
    exact Built.foldl_insert (fun e he => hs e.1 e.2 (OrdMap.mem_entries_iff.1 he)) .top

/-- The states that can be built are those that bind keys to proper intervals only.  As long as one
is not unreachable no expression is empty in it, so only throws and guards can make it so. -/
theorem built_collapses_at_guards (s : State) :
    (s.Built ↔ s.Normal) ∧
      (s.Built → s ≠ bottom → (∀ e, s.eval e ≠ .bottom) ∧
        ∀ stmt, s.interpret stmt = bottom →
          (∃ exn, stmt = .throw exn) ∨ ∃ cond, stmt = .assume cond) := by
  refine ⟨built_iff_normal, fun hs hne => ⟨fun e => ?_, fun stmt hstmt => ?_⟩⟩
  · exact eval_ne_bottom hs.normal hne e
  · exact throw_or_assume_of_interpret hs.normal hne hstmt

/-- The guard that a variable is zero. -/
def isZero : Stmt := .assume (.unary .not (.var "x"))

/-- An increment whose greatest result is not a word leaves a state in which nothing is empty,
though a guard makes it unreachable. -/
theorem built_collapses_at_guards_increment :
    (notNegative.interpret increment).get "x" = .atLeast .one ∧
      (∀ e, (notNegative.interpret increment).eval e ≠ .bottom) ∧
      (notNegative.interpret increment).interpret isZero = bottom ∧
      ((∃ exn, isZero = .throw exn) ∨ ∃ cond, isZero = .assume cond) := by
  have hbuilt : (notNegative.interpret increment).Built :=
    (Built.top.set "x" (some .zero) (some lastWord)).interpret increment
  have hne : notNegative.interpret increment ≠ bottom := by decide +kernel
  have hzero : (notNegative.interpret increment).interpret isZero = bottom := by decide +kernel
  obtain ⟨heval, hinterpret⟩ := (built_collapses_at_guards _).2 hbuilt hne
  exact ⟨by decide +kernel, heval, hzero, hinterpret isZero hzero⟩

end State

end Demanded
