import Demanded.FlowGraph.Basic
import Demanded.Proofs.StateOrder

/-!
# Executions

What programs do to stores of integers.  An expression may have many values in a store
(`Expr.Yields`): reads that states do not track give any integer, and so does a division by zero.
`Stmt.Exec` says which stores a statement may leave behind, and `FlowGraph.Step` takes one statement
of a flow graph.

There is one cell for each key, so a variable and its fields are separate cells.
-/

namespace Demanded

/-- The integer that stands for a truth value. -/
def truthValue (b : Bool) : Int := if b then 1 else 0

theorem truthValue_inj {b c : Bool} : truthValue b = truthValue c ↔ b = c := by
  cases b <;> cases c <;> decide

theorem decide_truthValue_eq_zero (b : Bool) : decide (truthValue b = 0) = !b := by
  cases b <;> rfl

theorem decide_truthValue_ne_zero (b : Bool) : decide (truthValue b ≠ 0) = b := by
  cases b <;> rfl

/-- What a comparison or a logical operator says about two integers; only `0` is false. -/
def BinaryOp.test (op : BinaryOp) (a b : Int) : Bool :=
  match op with
  | .lt => decide (a < b)
  | .le => decide (a ≤ b)
  | .gt => decide (b < a)
  | .ge => decide (b ≤ a)
  | .eq => decide (a = b)
  | .ne => decide (a ≠ b)
  | .and => decide (a ≠ 0) && decide (b ≠ 0)
  | .or => decide (a ≠ 0) || decide (b ≠ 0)
  | _ => false

/-- The operator may give the integer `v`.  Division rounds toward zero. -/
def BinaryOp.Gives (op : BinaryOp) (a b v : Int) : Prop :=
  match op with
  | .add => v = a + b
  | .sub => v = a - b
  | .mul => v = a * b
  | .div => b ≠ 0 → v = a.tdiv b
  | .rem => b ≠ 0 → v = a.tmod b
  | op => v = truthValue (op.test a b)

/-- The operator gives the integer `v`. -/
def UnaryOp.Gives (op : UnaryOp) (a v : Int) : Prop :=
  match op with
  | .neg => v = -a
  | .not => v = truthValue (decide (a = 0))

namespace BinaryOp

variable {op op' : BinaryOp} {a b : Int}

/-- The opposite of a comparison holds exactly of the integers of which the comparison does not. -/
theorem test_of_negate? (hop : op.negate? = some op') : op'.test a b = !op.test a b := by
  rw [Bool.eq_iff_iff]
  cases op <;> cases hop <;> simp [test]

/-- The comparison for changed sides says the same about integers that change sides. -/
theorem test_of_swap? (hop : op.swap? = some op') : op'.test b a = op.test a b := by
  cases op <;> cases hop <;> simp [test, eq_comm]

theorem isComparison_of_negate? (hop : op.negate? = some op') :
    op.isComparison = true ∧ op'.isComparison = true := by
  cases op <;> cases hop <;> exact ⟨rfl, rfl⟩

theorem isComparison_of_swap? (hop : op.swap? = some op') :
    op.isComparison = true ∧ op'.isComparison = true := by
  cases op <;> cases hop <;> exact ⟨rfl, rfl⟩

/-- The value of a comparison or of a logical operator is the one of its test. -/
theorem gives_iff_test (hop : op.isComparison = true ∨ op = .and ∨ op = .or) {v : Int} :
    op.Gives a b v ↔ v = truthValue (op.test a b) := by
  cases op with
  | lt | le | gt | ge | eq | ne | and | or => rfl
  | add | sub | mul | div | rem => simp [isComparison] at hop

end BinaryOp

/-- The expression may have the value `v`. -/
def Expr.Yields (σ : Store) : Expr → Int → Prop
  | .var name, v => v = σ name
  | .lit (.int w), v => v = w.val
  | .lit (.bool b), v => v = truthValue b
  | .lit .null, _ => True
  | .binary op lhs rhs, v => ∃ a b, lhs.Yields σ a ∧ rhs.Yields σ b ∧ op.Gives a b v
  | .unary op operand, v => ∃ a, operand.Yields σ a ∧ op.Gives a v
  | .field (.var name) f, v => v = σ (fieldKey name f)
  | .field _ _, _ | .index _ _, _ | .array _, _ | .call _ _, _ => True

/-- The store `σ'` is one after an assignment.  The fields of a variable on the right are copied,
an array literal fixes the length, and otherwise the fields of the variable on the left may have any
values. -/
structure Store.Assigns (σ : Store) (lhs : String) (rhs : Expr) (σ' : Store) : Prop where
  value : rhs.Yields σ (σ' lhs)
  others : ∀ key, key ≠ lhs → (∀ f, key ≠ fieldKey lhs f) → σ' key = σ key
  copied : ∀ source, rhs = .var source → ∀ f, σ' (fieldKey lhs f) = σ (fieldKey source f)
  length : ∀ elements, rhs = .array elements → σ' (fieldKey lhs "length") = elements.length

/-- The statement may lead from the store `σ` to the store `σ'`. -/
def Stmt.Exec (σ : Store) : Stmt → Store → Prop
  | .assign lhs rhs, σ' => σ.Assigns lhs rhs σ'
  | .write (.var name) (.field f) rhs, σ' => ∃ v, rhs.Yields σ v ∧ σ' = σ.put (fieldKey name f) v
  | .write _ _ _, σ' => σ' = σ
  | .throw _, _ => False
  | .assume cond, σ' => σ' = σ ∧ ∃ v, v ≠ 0 ∧ cond.Yields σ v
  | .expr _, σ' | .skip, σ' => σ' = σ

/-- One step of an execution: the statement of an edge is executed. -/
def FlowGraph.Step (f : FlowGraph) (c c' : Loc × Store) : Prop :=
  ∃ e ∈ f.edges, e.src = c.1 ∧ e.dst = c'.1 ∧ e.label.Exec c.2 c'.2

end Demanded
