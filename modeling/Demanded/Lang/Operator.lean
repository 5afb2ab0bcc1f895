/-!
# Operators

The unary and binary operators of expressions, their symbols in the text of a program, the tags that
name them in its stored form, and the two symmetries of comparisons: `BinaryOp.negate?` gives the
comparison that holds exactly when another one does not, and `BinaryOp.swap?` the one that holds
when the operands change sides.
-/

namespace Demanded

/-- Binary operators: arithmetic, comparison, logic. -/
inductive BinaryOp where
  | add
  | sub
  | mul
  | div
  | rem
  | lt
  | le
  | gt
  | ge
  | eq
  | ne
  | and
  | or
deriving DecidableEq

namespace BinaryOp

/-- All binary operators, in their order. -/
def all : List BinaryOp :=
  [add, sub, mul, div, rem, lt, le, gt, ge, eq, ne, and, or]

/-- The symbol in program text. -/
def symbol : BinaryOp → String
  | add => "+"
  | sub => "-"
  | mul => "*"
  | div => "/"
  | rem => "%"
  | lt => "<"
  | le => "<="
  | gt => ">"
  | ge => ">="
  | eq => "=="
  | ne => "!="
  | and => "&&"
  | or => "||"

/-- The name in the stored form of a program. -/
def tag : BinaryOp → String
  | add => "Plus"
  | sub => "Minus"
  | mul => "Times"
  | div => "Divided"
  | rem => "Mod"
  | lt => "Lt"
  | le => "Le"
  | gt => "Gt"
  | ge => "Ge"
  | eq => "Eq"
  | ne => "Ne"
  | and => "And"
  | or => "Or"

/-- The operator with a given tag. -/
def ofTag? (s : String) : Option BinaryOp :=
  all.find? fun op => op.tag == s

/-- The place of an operator in the order of operators. -/
def rank : BinaryOp → Nat
  | add => 0
  | sub => 1
  | mul => 2
  | div => 3
  | rem => 4
  | lt => 5
  | le => 6
  | gt => 7
  | ge => 8
  | eq => 9
  | ne => 10
  | and => 11
  | or => 12

/-- Whether the operator compares its operands. -/
def isComparison : BinaryOp → Bool
  | lt | le | gt | ge | eq | ne => true
  | _ => false

/-- The comparison that holds exactly when this one does not. -/
def negate? : BinaryOp → Option BinaryOp
  | lt => some ge
  | le => some gt
  | gt => some le
  | ge => some lt
  | eq => some ne
  | ne => some eq
  | _ => none

/-- The comparison that holds when the operands of this one change sides. -/
def swap? : BinaryOp → Option BinaryOp
  | lt => some gt
  | le => some ge
  | gt => some lt
  | ge => some le
  | eq => some eq
  | ne => some ne
  | _ => none

@[simp]
theorem ofTag?_tag (op : BinaryOp) : ofTag? op.tag = some op := by
  cases op <;> decide

theorem negate?_isSome (op : BinaryOp) : op.negate?.isSome = op.isComparison := by
  cases op <;> rfl

theorem swap?_isSome (op : BinaryOp) : op.swap?.isSome = op.isComparison := by
  cases op <;> rfl

end BinaryOp

/-- Unary operators. -/
inductive UnaryOp where
  | neg
  | not
deriving DecidableEq

namespace UnaryOp

/-- All unary operators, in their order. -/
def all : List UnaryOp := [neg, not]

/-- The symbol in program text. -/
def symbol : UnaryOp → String
  | neg => "-"
  | not => "!"

/-- The name in the stored form of a program. -/
def tag : UnaryOp → String
  | neg => "Neg"
  | not => "Not"

/-- The operator with a given tag. -/
def ofTag? (s : String) : Option UnaryOp :=
  all.find? fun op => op.tag == s

/-- The place of an operator in the order of operators. -/
def rank : UnaryOp → Nat
  | neg => 0
  | not => 1

@[simp]
theorem ofTag?_tag (op : UnaryOp) : ofTag? op.tag = some op := by
  cases op <;> decide

end UnaryOp

end Demanded
