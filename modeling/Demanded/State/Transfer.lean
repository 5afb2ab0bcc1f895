import Demanded.State.Basic
import Demanded.Lang.Stmt

/-!
# The effect of statements on states

`State.eval` evaluates an expression, `State.interpret` executes a statement.  A guard goes through
`State.assume`, which follows the logical structure of the condition down to comparisons, and
`State.compare`, which refines both sides of a comparison.

The divisions by zero that the evaluation may meet are listed by `evalWarnings` and
`interpretWarnings`, in the order in which they are met.
-/

namespace Demanded.State

/-! ## Expressions -/

/-- The interval of an expression. -/
def eval (s : State) : Expr → Interval
  | .var name => s.get name
  | .lit (.int v) => if s.isBottom then .bottom else .constant v
  | .lit (.bool b) => if s.isBottom then .bottom else .ofBool b
  | .lit .null => if s.isBottom then .bottom else .top
  | .binary op lhs rhs => Interval.evalBinary op (s.eval lhs) (s.eval rhs)
  | .unary op operand => Interval.evalUnary op (s.eval operand)
  | .field (.var name) f => s.get (fieldKey name f)
  | .field _ _ | .index _ _ | .array _ | .call _ _ => if s.isBottom then .bottom else .top

/-- The divisions by zero that evaluating an expression may meet. -/
def evalWarnings (s : State) : Expr → List Interval.ZeroDivisor
  | .binary op lhs rhs =>
    s.evalWarnings lhs ++ (s.evalWarnings rhs ++
      (Interval.zeroDivisor? op (s.eval lhs) (s.eval rhs)).toList)
  | .unary _ operand => s.evalWarnings operand
  | _ => []

/-! ## Guards -/

/-- Records that the value of an expression lies in an interval, if it has a key. -/
def restrict (s : State) (e : Expr) (value : Interval) : State :=
  match e.key? with
  | some key => s.set key value
  | none => s

/-- Restricts the state to executions in which a comparison holds. -/
def compare (s : State) (op : BinaryOp) (lhs rhs : Expr) : State :=
  let l := s.eval lhs
  let r := s.eval rhs
  if (Interval.evalBinary op l r).truth.mayBeTrue then
    let s := s.restrict lhs (l.refine op r)
    match op.swap? with
    | some swapped => s.restrict rhs (r.refine swapped l)
    | none => s
  else bottom

/-- The comparison to assume when `op` is known to hold or known to fail. -/
def polarized (op : BinaryOp) (polarity : Bool) : Option BinaryOp :=
  if polarity then some op else op.negate?

/-- The comparison with zero that says whether a value is true. -/
def truthTest (polarity : Bool) : BinaryOp := if polarity then .ne else .eq

/-- Restricts the state to executions in which a condition holds, or in which it fails. -/
def assume (s : State) (cond : Expr) (polarity : Bool) : State :=
  if s.isBottom then bottom
  else
    match cond with
    | .unary .not operand => s.assume operand (!polarity)
    | .binary .and lhs rhs =>
      if polarity then (s.assume lhs true).assume rhs true
      else (s.assume lhs false).join (s.assume rhs false)
    | .binary .or lhs rhs =>
      if polarity then (s.assume lhs true).join (s.assume rhs true)
      else (s.assume lhs false).assume rhs false
    | .binary op lhs rhs =>
      if op.isComparison then
        match polarized op polarity with
        | some op => s.compare op lhs rhs
        | none => s
      else s.compare (truthTest polarity) (.binary op lhs rhs) (.int Word.zero)
    | cond => s.compare (truthTest polarity) cond (.int Word.zero)

/-- The divisions by zero that a guard may meet. -/
def assumeWarnings (s : State) (cond : Expr) (polarity : Bool) : List Interval.ZeroDivisor :=
  if s.isBottom then []
  else
    match cond with
    | .unary .not operand => s.assumeWarnings operand (!polarity)
    | .binary .and lhs rhs =>
      s.assumeWarnings lhs polarity ++
        (if polarity then s.assume lhs true else s).assumeWarnings rhs polarity
    | .binary .or lhs rhs =>
      s.assumeWarnings lhs polarity ++
        (if polarity then s else s.assume lhs false).assumeWarnings rhs polarity
    | .binary op lhs rhs =>
      if op.isComparison then s.evalWarnings lhs ++ s.evalWarnings rhs
      else s.evalWarnings (.binary op lhs rhs)
    | cond => s.evalWarnings cond

/-! ## Statements -/

/-- The facts about the fields of a value that an assignment copies: those of the variable on the
right, or the length of an array literal. -/
def copiedFields (s : State) : Expr → List (String × Interval)
  | .var source => s.fieldsOf source
  | .array elements =>
    match Word.ofInt? elements.length with
    | some length => [("length", .constant length)]
    | none => []
  | _ => []

/-- Assigns to a variable.  What was known about its fields is lost, and the fields of the new value
are copied. -/
def assign (s : State) (lhs : String) (rhs : Expr) : State :=
  let copied := (s.copiedFields rhs).map fun fact => (fieldKey lhs fact.1, fact.2)
  ((s.forgetFields lhs).setAll copied).set lhs (s.eval rhs)

/-- Writes to a field of a variable; other writes are not tracked. -/
def write (s : State) (receiver : Expr) (sel : Selector) (rhs : Expr) : State :=
  match receiver, sel with
  | .var name, .field f => s.set (fieldKey name f) (s.eval rhs)
  | _, _ => s

/-- The state after a statement. -/
def interpret (s : State) (stmt : Stmt) : State :=
  if s.isBottom then bottom
  else
    match stmt with
    | .assign lhs rhs => s.assign lhs rhs
    | .write receiver sel rhs => s.write receiver sel rhs
    | .throw _ => bottom
    | .assume cond => s.assume cond true
    | .expr _ | .skip => s

/-- The divisions by zero that a statement may meet. -/
def interpretWarnings (s : State) (stmt : Stmt) : List Interval.ZeroDivisor :=
  if s.isBottom then []
  else
    match stmt with
    | .assign _ rhs => s.evalWarnings rhs
    | .write (.var _) (.field _) rhs => s.evalWarnings rhs
    | .assume cond => s.assumeWarnings cond true
    | _ => []

end Demanded.State
