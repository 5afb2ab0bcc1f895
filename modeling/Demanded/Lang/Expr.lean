import Demanded.Word
import Demanded.Lang.Operator

/-!
# Expressions

Expressions are variables, literals, operators, field and index reads, array literals and calls.
`Expr.text` is their text in a program.  `Expr.accesses` lists the index reads in an expression, an
outer one before those inside it.
-/

namespace Demanded

/-- A literal. -/
inductive Literal where
  | int (value : Word)
  | bool (value : Bool)
  | null
deriving DecidableEq

namespace Literal

/-- The text of a literal. -/
def text : Literal → String
  | int v => toString v.val
  | bool true => "true"
  | bool false => "false"
  | null => "null"

end Literal

/-- An expression. -/
inductive Expr where
  | var (name : String)
  | lit (value : Literal)
  | binary (op : BinaryOp) (lhs rhs : Expr)
  | unary (op : UnaryOp) (operand : Expr)
  /-- The field of an object. -/
  | field (receiver : Expr) (name : String)
  /-- The element of an array. -/
  | index (receiver idx : Expr)
  /-- An array with the given elements. -/
  | array (elements : List Expr)
  /-- A call to a named function. -/
  | call (callee : String) (args : List Expr)

/-- An element of an array that is read or written: the array and the index. -/
structure Access where
  receiver : Expr
  idx : Expr

namespace Expr

/-- An integer literal. -/
def int (v : Word) : Expr := lit (.int v)

/-- The text of an operand: a binary operator stands in parentheses there. -/
def parenthesize : Expr → String → String
  | binary .., s => "(" ++ s ++ ")"
  | _, s => s

mutual

/-- The text of an expression. -/
def text : Expr → String
  | var name => name
  | lit value => value.text
  | binary op lhs rhs =>
    lhs.parenthesize (text lhs) ++ " " ++ op.symbol ++ " " ++ rhs.parenthesize (text rhs)
  | unary op operand => op.symbol ++ operand.parenthesize (text operand)
  | field receiver name => receiver.parenthesize (text receiver) ++ "." ++ name
  | index receiver idx => receiver.parenthesize (text receiver) ++ "[" ++ text idx ++ "]"
  | array elements => "[" ++ String.intercalate ", " (texts elements) ++ "]"
  | call callee args => callee ++ "(" ++ String.intercalate ", " (texts args) ++ ")"

/-- The texts of a list of expressions. -/
def texts : List Expr → List String
  | [] => []
  | e :: rest => text e :: texts rest

end

mutual

/-- The index reads in an expression, outermost first. -/
def accesses : Expr → List Access
  | var _ | lit _ => []
  | binary _ lhs rhs => accesses lhs ++ accesses rhs
  | unary _ operand => accesses operand
  | field receiver _ => accesses receiver
  | index receiver idx => ⟨receiver, idx⟩ :: (accesses receiver ++ accesses idx)
  | array elements => accessesList elements
  | call _ args => accessesList args

/-- The index reads in a list of expressions. -/
def accessesList : List Expr → List Access
  | [] => []
  | e :: rest => accesses e ++ accessesList rest

end

end Expr

end Demanded
